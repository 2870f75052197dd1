import Devnet.Engine.Clock
import Devnet.Engine.Lmd
import Devnet.Engine.Replicas
import Devnet.Engine.SafeTarget

/-!
How long a vote waits. A gossip vote is pending until the fourth interval of the slot, when
the pending votes join the counted ones. Whatever else happens in between, a slot's worth of
ticks is enough for it to be counted, unless a later vote of its validator is instead.
-/

set_option autoImplicit false

namespace Devnet.Engine
open Machine Devnet.Types Devnet.Ssz Devnet.Protocol Devnet.ForkChoice

def HasVote (pool : Votes) (v : ValidatorIndex) (k : Nat) : Prop :=
  ∃ vote : SignedAttestation, pool[v]? = some vote ∧ k ≤ vote.message.data.slot.get

theorem HasVote.supersedes {old new : Votes} {v : ValidatorIndex} {k : Nat}
    (h : HasVote old v k) (hsup : Supersedes old new) : HasVote new v k := by
  obtain ⟨vote,hvote,hk⟩ := h
  obtain ⟨vote',hvote',hle⟩ := hsup v vote hvote
  exact ⟨vote',hvote',hk.trans hle⟩

/-- A vote of `v` that late is pending, or it is counted and none is pending that could take
its place. -/
inductive Underway (v : ValidatorIndex) (k : Nat) (st : Store) : Prop where
  | pending (vote : HasVote st.latestNewVotes v k)
  | counted (vote : HasVote st.latestKnownVotes v k) (free : st.latestNewVotes[v]? = none)

theorem Underway.promoted {v : ValidatorIndex} {k : Nat} {st : Store} (h : Underway v k st) :
    HasVote st.promoted.latestKnownVotes v k := by
  simp only [HasVote,Store.promoted,Std.ExtTreeMap.getElem?_union]
  cases h with
  | pending vote =>
    obtain ⟨vote,hvote,hk⟩ := vote
    exact ⟨vote,by simp [hvote],hk⟩
  | counted vote free =>
    obtain ⟨vote,hvote,hk⟩ := vote
    exact ⟨vote,by simp [hvote,free],hk⟩

theorem Underway.onChain {v : ValidatorIndex} {k : Nat} {st : Store} (h : Underway v k st)
    (vote : SignedAttestation) : Underway v k (st.withOnChain vote) := by
  have hmono := supersedes_insertIfNewer st.latestKnownVotes vote.message.validatorId vote
  cases h with
  | counted known free =>
    refine .counted (known.supersedes hmono) ?_
    simp [Store.withOnChain,getElem?_evictIfOlder,free]
  | pending waiting =>
    obtain ⟨w,hw,hk⟩ := waiting
    by_cases hevict : vote.message.validatorId = v ∧
        w.message.data.slot.get < vote.message.data.slot.get
    · refine .counted ?_ ?_
      · -- The known vote is the new one, or is no older than it.
        obtain ⟨hid,hlt⟩ := hevict
        simp only [HasVote,Store.withOnChain,getElem?_insertIfNewer]
        by_cases hnewer : ∀ e, st.latestKnownVotes[v]? = some e →
            e.message.data.slot.get < vote.message.data.slot.get
        · exact ⟨vote,if_pos ⟨hid,hnewer⟩,by omega⟩
        · obtain ⟨e,he⟩ := not_forall.mp hnewer
          obtain ⟨he,hle⟩ := Classical.not_imp.mp he
          exact ⟨e,(if_neg fun hboth => hnewer hboth.2).trans he,by omega⟩
      · simp only [Store.withOnChain,getElem?_evictIfOlder]
        exact if_pos ⟨hevict.1,w,hw,hevict.2⟩
    · refine .pending ⟨w,?_,hk⟩
      simp only [Store.withOnChain,getElem?_evictIfOlder,hw]
      refine if_neg ?_
      rintro ⟨hid,e,he,hlt⟩
      obtain rfl : w = e := by simpa using he
      exact hevict ⟨hid,hlt⟩

theorem Underway.touch {v : ValidatorIndex} {k : Nat} {st t : Store} (h : Underway v k st)
    (htouch : Touch st t) : Underway v k t := by
  cases htouch with
  | @onChain vote admits => exact h.onChain vote
  | promote => exact .counted h.promoted (by simp [Store.promoted])
  | clock time =>
    cases h with
    | pending vote => exact .pending vote
    | counted vote free => exact .counted vote free
  | head votes selects =>
    cases h with
    | pending vote => exact .pending vote
    | counted vote free => exact .counted vote free
  | safeTarget votes minScore selects =>
    cases h with
    | pending vote => exact .pending vote
    | counted vote free => exact .counted vote free

theorem Underway.accepted {v : ValidatorIndex} {k : Nat} {st : Store} (h : Underway v k st) :
    HasVote (after acceptNewVotes st).latestKnownVotes v k := by
  -- What is pending is counted also if the head cannot be refreshed afterwards.
  rcases acceptNewVotes_cases st with ⟨head,-,hrun⟩ | ⟨e,-,hrun⟩
  · rw [after_of_ok hrun]
    exact h.promoted
  · rw [after_of_error hrun]
    exact h.promoted

def Event.isTick : Event → Bool
  | .tickInterval _ => true
  | _ => false

/-- How many ticks it takes to the next one into the last phase. -/
def ticksLeft (t : Time) : Nat :=
  intervalsPerSlot - (t.get+1)%intervalsPerSlot

section
variable [HashPair]

theorem Underway.writes {v : ValidatorIndex} {k : Nat} {st t : Store} (h : Underway v k st)
    (hwrites : Writes st t) : Underway v k t := by
  induction hwrites with
  | refl => exact h
  | @tail m t _ hwrite ih =>
    cases hwrite with
    | touch htouch => exact ih.touch htouch
    | @track block parent post hasParent assembled root isNew =>
      obtain ⟨hknown,hpending,-,-⟩ := tracking_frame m (hashTreeRoot block) block post
      cases ih with
      | pending vote => exact .pending (by rwa [hpending])
      | counted vote free => exact .counted (by rwa [hknown]) (by rwa [hpending])

theorem underway_handle {v : ValidatorIndex} {k : Nat} {st : Store}
    (h : HasVote st.latestNewVotes v k) (e : Event) : Underway v k (handle e st) := by
  cases hg : e.gossip with
  | none => exact (Underway.pending h).writes (handle_settles hg st).writes
  | some vote =>
    rcases handle_gossip hg st with heq | ⟨-,heq⟩
    · rw [heq]
      exact .pending h
    · rw [heq]
      exact .pending (h.supersedes (supersedes_insertIfNewer _ _ vote))

omit [HashPair] in
theorem ticksLeft_next {t next : Time} (h : t.checkedAdvance = some next) :
    next.phase = .acceptNewVotes ∨ ticksLeft next+1 = ticksLeft t := by
  unfold Time.checkedAdvance at h
  split at h
  · obtain rfl := Option.some.inj h
    simp only [ticksLeft,Time.phase,Time.interval,intervalsPerSlot]
    have hcases : (t.get+1)%4 = 0 ∨ (t.get+1)%4 = 1 ∨ (t.get+1)%4 = 2 ∨ (t.get+1)%4 = 3 := by omega
    rcases hcases with heq | heq | heq | heq
    · right
      omega
    · right
      omega
    · right
      omega
    · left
      rw [heq]
      rfl
  · cases h

/-- One event on a store with a pending vote: the vote comes to be counted, or it is still
pending and the acceptance is nearer by the tick the event may have been. -/
theorem pending_step {v : ValidatorIndex} {k : Nat} {st : Store}
    (h : HasVote st.latestNewVotes v k) (e : Event) (hclock : st.time.get+1 < 2^64) :
    HasVote (handle e st).latestKnownVotes v k ∨
      HasVote (handle e st).latestNewVotes v k ∧
        ticksLeft (handle e st).time+[e].countP Event.isTick = ticksLeft st.time ∧
        (handle e st).time.get = st.time.get+[e].countP Event.isTick := by
  cases underway_handle h e with
  | counted vote free => exact .inl vote
  | pending vote =>
    by_cases htick : ∃ hasProposal, e = .tickInterval hasProposal
    · obtain ⟨hasProposal,rfl⟩ := htick
      have hadvance : st.time.checkedAdvance = some ⟨st.time.get+1,hclock⟩ := dif_pos hclock
      have htime : (handle (.tickInterval hasProposal) st).time = ⟨st.time.get+1,hclock⟩ := by
        rw [handle,time_tickInterval,Time.next,hadvance,Option.getD_some]
      rcases ticksLeft_next hadvance with hphase | hleft
      · refine .inl ?_
        have hpending : Underway v k { st with time := ⟨st.time.get+1,hclock⟩ } := .pending h
        rw [handle,after,tickInterval_some hadvance,← after,hphase]
        exact hpending.accepted
      · refine .inr ⟨vote,?_,?_⟩
        · rw [htime]
          exact hleft
        · rw [htime]
          rfl
    · have hcount : [e].countP Event.isTick = 0 := by
        cases e with
        | tickInterval hasProposal => exact absurd ⟨hasProposal,rfl⟩ htick
        | _ => rfl
      have htime : (handle e st).time = st.time := by
        rcases time_handle e st with hsame | ⟨hyes,-⟩
        · exact hsame
        · exact absurd hyes htick
      rw [hcount,htime]
      exact .inr ⟨vote,rfl,rfl⟩

/-- A pending vote, or a later one of its validator, is counted before a slot's worth of ticks
has passed, whatever calls come between them. -/
theorem vote_counted_within_slot {v : ValidatorIndex} {st : Store} {vote : SignedAttestation}
    (hvote : st.latestNewVotes[v]? = some vote)
    (hclock : st.time.get+intervalsPerSlot < 2^64) (events : List Event)
    (hticks : intervalsPerSlot ≤ events.countP Event.isTick) :
    ∃ before, before <+: events ∧ ∃ counted : SignedAttestation,
      (drive before st).latestKnownVotes[v]? = some counted ∧
      vote.message.data.slot.get ≤ counted.message.data.slot.get := by
  -- What is left of the ticks is enough for the acceptance, and the clock can count them.
  suffices hwait : ∀ (events : List Event) (st : Store),
      HasVote st.latestNewVotes v vote.message.data.slot.get →
      ticksLeft st.time ≤ events.countP Event.isTick → st.time.get+ticksLeft st.time < 2^64 →
      ∃ before, before <+: events ∧
        HasVote (drive before st).latestKnownVotes v vote.message.data.slot.get by
    have hleft : ticksLeft st.time ≤ intervalsPerSlot := Nat.sub_le _ _
    exact hwait events st ⟨vote,hvote,Nat.le_refl _⟩ (hleft.trans hticks) (by omega)
  intro events
  induction events with
  | nil =>
    intro st _ hnone _
    have hpos : 0 < ticksLeft st.time := Nat.sub_pos_of_lt (Nat.mod_lt _ (by decide))
    simp only [List.countP_nil] at hnone
    omega
  | cons e rest ih =>
    intro st hpending hleft hroom
    have hpos : 0 < ticksLeft st.time := Nat.sub_pos_of_lt (Nat.mod_lt _ (by decide))
    have hcount : (e :: rest).countP Event.isTick =
        [e].countP Event.isTick+rest.countP Event.isTick := by
      rw [← List.countP_append]
      rfl
    rcases pending_step hpending e (by omega) with hcounted | ⟨hstill,hnearer,htime⟩
    · exact ⟨[e],⟨rest,rfl⟩,hcounted⟩
    · obtain ⟨before,⟨after,rfl⟩,hcounted⟩ :=
        ih (handle e st) hstill (by omega) (by omega)
      exact ⟨e :: before,⟨after,rfl⟩,hcounted⟩

end

section
attribute [local instance] mixPair

/-- The vote of the only validator waits from the start of slot 0. -/
theorem vote_counted_within_slot_line : ∃ before,
    before <+: [.tickInterval true,.tickInterval false,.tickInterval false,.tickInterval false] ∧
    ∃ counted : SignedAttestation,
      (drive before polledLine).latestKnownVotes[(default : ValidatorIndex)]? = some counted ∧
      1 ≤ counted.message.data.slot.get := by
  obtain ⟨⟨vote,hvote,hslot⟩,hclock⟩ :
      (∃ vote ∈ polledLine.latestNewVotes[(default : ValidatorIndex)]?,
        vote.message.data.slot.get = 1) ∧ polledLine.time.get+intervalsPerSlot < 2^64 := by
    decide +kernel
  obtain ⟨before,hbefore,counted,hcounted,hle⟩ :=
    vote_counted_within_slot hvote hclock [.tickInterval true,.tickInterval false,
      .tickInterval false,.tickInterval false] (by decide)
  exact ⟨before,hbefore,counted,hcounted,hslot ▸ hle⟩

end

end Devnet.Engine
