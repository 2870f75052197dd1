import Devnet.Engine.Node

/-!
Latest message driven: what a validator's counted vote may be replaced by. On-chain
votes are compared with both pools, promotion is a plain overwrite, and a gossip vote
is compared with the pending pool only. So the counted vote of a validator moves
forward as long as no pending vote is older than the known one.
-/

set_option autoImplicit false

namespace Devnet.Engine
open Machine Devnet.Types Devnet.Ssz Devnet.Protocol Devnet.ForkChoice

/-- Every entry stays or gives way to one that is no older. -/
def Supersedes (old new : Votes) : Prop :=
  ∀ (v : ValidatorIndex) (e : SignedAttestation), old[v]? = some e →
    ∃ e' : SignedAttestation, new[v]? = some e' ∧ e.message.data.slot.get ≤ e'.message.data.slot.get

theorem Supersedes.refl (votes : Votes) : Supersedes votes votes :=
  fun _ e h => ⟨e,h,Nat.le_refl _⟩

theorem Supersedes.trans {a b c : Votes} (h : Supersedes a b) (h' : Supersedes b c) :
    Supersedes a c := by
  intro v e he
  obtain ⟨e₁,he₁,hle₁⟩ := h v e he
  obtain ⟨e₂,he₂,hle₂⟩ := h' v e₁ he₁
  exact ⟨e₂,he₂,hle₁.trans hle₂⟩

/-- No pending vote is older than the known vote of its validator. -/
def PendingAhead (st : Store) : Prop :=
  ∀ (v : ValidatorIndex) (pending known : SignedAttestation),
    st.latestNewVotes[v]? = some pending → st.latestKnownVotes[v]? = some known →
    known.message.data.slot.get ≤ pending.message.data.slot.get

theorem supersedes_insertIfNewer (map : Votes) (validator : ValidatorIndex)
    (vote : SignedAttestation) : Supersedes map (insertIfNewer map validator vote).1 := by
  intro v e he
  rw [getElem?_insertIfNewer]
  split
  · next hnewer => exact ⟨vote,rfl,Nat.le_of_lt (hnewer.2 e he)⟩
  · exact ⟨e,he,Nat.le_refl _⟩

theorem supersedes_promoted {st : Store} (h : PendingAhead st) :
    Supersedes st.latestKnownVotes st.promoted.latestKnownVotes := by
  intro v e he
  simp only [Store.promoted,Std.ExtTreeMap.getElem?_union]
  cases hnew : st.latestNewVotes[v]? with
  | none => exact ⟨e,by simpa using he,Nat.le_refl _⟩
  | some pending => exact ⟨pending,rfl,h v pending e hnew he⟩

theorem pendingAhead_onChain {st : Store} (h : PendingAhead st) (vote : SignedAttestation) :
    PendingAhead (st.withOnChain vote) := by
  -- A vote of a block that overtakes the known vote also removes an older pending one.
  intro v pending known hpending hknown
  simp only [Store.withOnChain,getElem?_evictIfOlder] at hpending
  simp only [Store.withOnChain,getElem?_insertIfNewer] at hknown
  split at hpending
  · cases hpending
  · next hkeep =>
    split at hknown
    · next hnewer =>
      obtain rfl : vote = known := by simpa using hknown
      by_contra hlt
      exact hkeep ⟨hnewer.1,pending,hpending,Nat.lt_of_not_le hlt⟩
    · exact h v pending known hpending hknown

theorem lmd_touch {st t : Store} (htouch : Touch st t) (h : PendingAhead st) :
    PendingAhead t ∧ Supersedes st.latestKnownVotes t.latestKnownVotes := by
  cases htouch with
  | clock time => exact ⟨h,Supersedes.refl _⟩
  | onChain admits => exact ⟨pendingAhead_onChain h _,supersedes_insertIfNewer _ _ _⟩
  | promote =>
    refine ⟨?_,supersedes_promoted h⟩
    intro v pending known hpending
    simp [Store.promoted] at hpending
  | head votes selects => exact ⟨h,Supersedes.refl _⟩
  | safeTarget votes minScore selects => exact ⟨h,Supersedes.refl _⟩

/-- An admitted gossip vote of a validator without a pending vote is not older than the
validator's known vote. -/
def Fresh (st : Store) (vote : SignedAttestation) : Prop :=
  st.Admits vote → st.latestNewVotes[vote.message.validatorId]? = none →
    ∀ known : SignedAttestation, st.latestKnownVotes[vote.message.validatorId]? = some known →
      known.message.data.slot.get ≤ vote.message.data.slot.get

theorem pendingAhead_gossip {st : Store} {vote : SignedAttestation} (h : PendingAhead st)
    (hfresh : Fresh st vote) (hadmits : st.Admits vote) : PendingAhead (st.withGossip vote) := by
  intro v pending known hpending hknown
  simp only [Store.withGossip,getElem?_insertIfNewer] at hpending
  change st.latestKnownVotes[v]? = some known at hknown
  split at hpending
  · next hnewer =>
    obtain ⟨rfl,hlater⟩ := hnewer
    obtain rfl : vote = pending := by simpa using hpending
    cases hold : st.latestNewVotes[vote.message.validatorId]? with
    | none => exact hfresh hadmits hold known hknown
    | some old => exact (h _ old known hold hknown).trans (Nat.le_of_lt (hlater old hold))
  · exact h v pending known hpending hknown

section
variable [HashPair]

theorem lmd_write {st t : Store} (hwrite : Write st t) (h : PendingAhead st) :
    PendingAhead t ∧ Supersedes st.latestKnownVotes t.latestKnownVotes := by
  cases hwrite with
  | touch htouch => exact lmd_touch htouch h
  | @track block parent post hasParent assembled root isNew =>
    obtain ⟨hknown,hnew,-,-⟩ := tracking_frame st (hashTreeRoot block) block post
    refine ⟨?_,by rw [hknown]; exact Supersedes.refl _⟩
    intro v pending known
    rw [hknown,hnew]
    exact h v pending known

theorem lmd_writes {st t : Store} (hwrites : Writes st t) (h : PendingAhead st) :
    PendingAhead t ∧ Supersedes st.latestKnownVotes t.latestKnownVotes := by
  induction hwrites with
  | refl => exact ⟨h,Supersedes.refl _⟩
  | tail _ hwrite ih =>
    obtain ⟨hahead,hsup⟩ := lmd_write hwrite ih.1
    exact ⟨hahead,ih.2.trans hsup⟩

def HandlesFresh (st : Store) (e : Event) (out : Unit) (t : Store) : Prop :=
  Handles st e out t ∧ ∀ vote, e.gossip = some vote → Fresh st vote

theorem HandlesFresh.lmd {st t : Store} {e : Event} {out : Unit} (hstep : HandlesFresh st e out t)
    (h : PendingAhead st) :
    PendingAhead t ∧ Supersedes st.latestKnownVotes t.latestKnownVotes := by
  obtain ⟨rfl,hfresh⟩ := hstep
  cases hg : e.gossip with
  | none => exact lmd_writes (handle_settles hg st).writes h
  | some vote =>
    rcases handle_gossip hg st with heq | ⟨hadmits,heq⟩
    · rw [heq]
      exact ⟨h,Supersedes.refl _⟩
    · rw [heq]
      exact ⟨pendingAhead_gossip h (hfresh vote hg) hadmits,Supersedes.refl _⟩

/-- A store built from some anchor, in either way. -/
def Anchored (st : Store) : Prop :=
  ∃ state block, Store.fromAnchor state block = .ok st ∨ Store.fromTrustedHead state block = .ok st

theorem Anchored.pendingAhead {st : Store} (h : Anchored st) : PendingAhead st := by
  obtain ⟨state,block,hopen | hopen⟩ := h
  all_goals
    obtain ⟨-,time,rfl⟩ := seedAnchor_ok hopen
    intro v pending known hpending
    simp at hpending

/-- In a run whose gossip votes are all fresh the counted vote of a validator never gives way
to an older one, between any two stores of the run. -/
theorem latestKnownVotes_slot_mono {g m t : Store} {before later : List Event}
    {outs outs' : List Unit} (hanchor : Anchored g) (hbefore : Run HandlesFresh g before outs m)
    (hlater : Run HandlesFresh m later outs' t) (v : ValidatorIndex) (vote : SignedAttestation)
    (hvote : m.latestKnownVotes[v]? = some vote) :
    ∃ newer : SignedAttestation, t.latestKnownVotes[v]? = some newer ∧
      vote.message.data.slot.get ≤ newer.message.data.slot.get := by
  have hm : PendingAhead m :=
    hbefore.preserves PendingAhead hanchor.pendingAhead (fun h hstep => (hstep.lmd h).1)
  have hrun : PendingAhead t ∧ Supersedes m.latestKnownVotes t.latestKnownVotes := by
    refine hlater.preserves
      (fun st => PendingAhead st ∧ Supersedes m.latestKnownVotes st.latestKnownVotes)
      ⟨hm,Supersedes.refl _⟩ ?_
    intro n e out n' hn hstep
    obtain ⟨hahead,hsup⟩ := hstep.lmd hn.1
    exact ⟨hahead,hn.2.trans hsup⟩
  exact hrun.2 v vote hvote

end

section
attribute [local instance] mixPair

def anchorVote (st : Store) (slot : Nat) : SignedAttestation :=
  let anchor : Checkpoint := ⟨st.head,Slot.zero⟩
  ⟨⟨default,⟨Slot.ofNat slot,anchor,anchor,anchor⟩⟩,default⟩

def afterVote (st : Store) (slot : Nat) : Store :=
  drive [.importAttestation (anchorVote soloStore slot),.acceptNewVotes] st

def countedSlot (st : Store) : Option Nat :=
  st.latestKnownVotes[(default : ValidatorIndex)]?.map (·.message.data.slot.get)

theorem handlesFresh_afterVote {st : Store} {slot : Nat}
    (h : Fresh st (anchorVote soloStore slot)) :
    Run HandlesFresh st [.importAttestation (anchorVote soloStore slot),.acceptNewVotes] [(),()]
      (afterVote st slot) := by
  refine (Run.single (o := ()) ⟨rfl,?_⟩).snoc ⟨rfl,by simp [Event.gossip]⟩
  intro vote hvote
  obtain rfl : anchorVote soloStore slot = vote := by simpa [Event.gossip] using hvote
  exact h

theorem latestKnownVotes_slot_mono_solo :
    countedSlot (afterVote soloStore 0) = some 0 ∧
    ∃ vote newer : SignedAttestation,
      (afterVote soloStore 0).latestKnownVotes[(default : ValidatorIndex)]? = some vote ∧
      (afterVote (afterVote soloStore 0) 1).latestKnownVotes[(default : ValidatorIndex)]? =
        some newer ∧
      vote.message.data.slot.get ≤ newer.message.data.slot.get := by
  have hzero : countedSlot (afterVote soloStore 0) = some 0 := by decide +kernel
  obtain ⟨vote,hvote,hslot⟩ := Option.map_eq_some_iff.mp hzero
  have hfirst : Fresh soloStore (anchorVote soloStore 0) := by
    intro _ _ known hknown
    simp [soloStore,genesisStore] at hknown
  have hnext : Fresh (afterVote soloStore 0) (anchorVote soloStore 1) := by
    intro _ _ known hknown
    have hid : (anchorVote soloStore 1).message.validatorId = default := rfl
    rw [hid,hvote] at hknown
    obtain rfl := Option.some.inj hknown
    rw [hslot]
    exact Nat.zero_le _
  obtain ⟨newer,hnewer,hle⟩ := latestKnownVotes_slot_mono
    ⟨_,_,.inl (fromAnchor_genesis 0 [default])⟩ (handlesFresh_afterVote hfirst)
    (handlesFresh_afterVote hnext) default vote hvote
  exact ⟨hzero,vote,newer,hvote,hnewer,hle⟩

theorem latestKnownVotes_slot_falls :
    ∃ before later outs outs', Anchored soloStore ∧
      Run Handles soloStore before outs (afterVote soloStore 1) ∧
      Run Handles (afterVote soloStore 1) later outs' (afterVote (afterVote soloStore 1) 0) ∧
      countedSlot (afterVote soloStore 1) = some 1 ∧
      countedSlot (afterVote (afterVote soloStore 1) 0) = some 0 := by
  obtain ⟨outs,hrun⟩ := handles_drive
    [.importAttestation (anchorVote soloStore 1),.acceptNewVotes] soloStore
  obtain ⟨outs',hrun'⟩ := handles_drive
    [.importAttestation (anchorVote soloStore 0),.acceptNewVotes] (afterVote soloStore 1)
  exact ⟨_,_,outs,outs',⟨_,_,.inl (fromAnchor_genesis 0 [default])⟩,hrun,hrun',
    by decide +kernel,by decide +kernel⟩

end

end Devnet.Engine
