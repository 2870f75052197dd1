import Devnet.P2p.Gossip

/-!
The bound on what a peer has in flight, with the guards that are alive beside the counters. Both
operations run under one lock, so any interleaving of them is a sequence of admissions and drops;
a guard is not `Clone`, so it is dropped at most once. The counters are the numbers of the guards,
and what one peer is answered depends on its own events alone.
-/

set_option autoImplicit false

namespace Devnet.P2p
open Machine Devnet.Types Devnet.Ssz Devnet.Networking

inductive SlotEvent where
  | ask (peer : PeerId)
  | drop (guard : AdmitGuard)
  deriving DecidableEq

def SlotEvent.peer : SlotEvent → PeerId
  | .ask peer => peer
  | .drop guard => guard.peer

/-- The counters and the guards handed out and not dropped yet. -/
structure Ledger where
  admission : PeerAdmission
  live : List AdmitGuard

namespace Ledger

def new (cap : ℕ+) : Ledger := ⟨PeerAdmission.new cap cap.pos,[]⟩

def liveOf (self : Ledger) (peer : PeerId) : Nat := self.live.count ⟨peer⟩

/-- A guard can be dropped by whoever holds it, and by nobody else. -/
inductive Step : Ledger → SlotEvent → Option AdmitGuard → Ledger → Prop where
  | ask (self : Ledger) (peer : PeerId) :
      Step self (.ask peer) (self.admission.tryAdmit peer).1
        ⟨(self.admission.tryAdmit peer).2,
          (self.admission.tryAdmit peer).1.toList ++ self.live⟩
  | drop {self : Ledger} {guard : AdmitGuard} (h : guard ∈ self.live) :
      Step self (.drop guard) none ⟨self.admission.release guard,self.live.erase guard⟩

end Ledger

namespace PeerAdmission

theorem tryAdmit_of_full {self : PeerAdmission} {peer : PeerId} (h : self.cap ≤ self.held peer) :
    self.tryAdmit peer =
      (none,{ self with inFlight := self.inFlight.insert peer (self.held peer) }) := if_pos h

theorem tryAdmit_of_room {self : PeerAdmission} {peer : PeerId} (h : self.held peer < self.cap) :
    self.tryAdmit peer =
      (some ⟨peer⟩,{ self with inFlight := self.inFlight.insert peer (self.held peer+1) }) :=
  if_neg (Nat.not_le.mpr h)

theorem tryAdmit_eq_none {self : PeerAdmission} {peer : PeerId} :
    (self.tryAdmit peer).1 = none ↔ self.cap ≤ self.held peer := by
  by_cases h : self.cap ≤ self.held peer
  · simp [tryAdmit_of_full h,h]
  · simp [tryAdmit_of_room (Nat.lt_of_not_le h),h]

@[simp] theorem cap_tryAdmit (self : PeerAdmission) (peer : PeerId) :
    (self.tryAdmit peer).2.cap = self.cap := by
  unfold tryAdmit
  dsimp only
  split <;> rfl

@[simp] theorem cap_release (self : PeerAdmission) (guard : AdmitGuard) :
    (self.release guard).cap = self.cap := by
  unfold release
  split
  · rfl
  · split <;> rfl

theorem getElem?_tryAdmit_of_ne (self : PeerAdmission) {peer other : PeerId} (h : peer ≠ other) :
    (self.tryAdmit peer).2.inFlight[other]? = self.inFlight[other]? := by
  unfold tryAdmit
  dsimp only
  split <;> simp [Std.ExtTreeMap.getElem?_insert,h]

theorem getElem?_tryAdmit_self (self : PeerAdmission) (peer : PeerId) :
    (self.tryAdmit peer).2.inFlight[peer]? =
      some (if self.cap ≤ self.held peer then self.held peer else self.held peer+1) := by
  unfold tryAdmit
  dsimp only
  split <;> simp

theorem getElem?_release_of_ne (self : PeerAdmission) {guard : AdmitGuard} {other : PeerId}
    (h : guard.peer ≠ other) : (self.release guard).inFlight[other]? = self.inFlight[other]? := by
  unfold release
  split
  · rfl
  · split
    · simp [Std.ExtTreeMap.getElem?_erase,h]
    · simp [Std.ExtTreeMap.getElem?_insert,h]

theorem getElem?_release_self (self : PeerAdmission) (guard : AdmitGuard) :
    (self.release guard).inFlight[guard.peer]? =
      self.inFlight[guard.peer]?.bind fun count => if count-1 = 0 then none else some (count-1) := by
  cases hentry : self.inFlight[guard.peer]? with
  | none => simp [release,hentry]
  | some count =>
    by_cases hzero : count-1 = 0
    · simp [release,hentry,hzero]
    · simp [release,hentry,hzero]

end PeerAdmission

namespace Ledger

/-- The counters are the guards: an entry for every peer that has one, and none at zero. -/
structure Balanced (ledger : Ledger) : Prop where
  counted : ∀ peer, ledger.admission.inFlight[peer]? =
    if ledger.liveOf peer = 0 then none else some (ledger.liveOf peer)
  bounded : ∀ peer, ledger.liveOf peer ≤ ledger.admission.cap

theorem Balanced.held {self : Ledger} (h : self.Balanced) (peer : PeerId) :
    self.admission.held peer = self.liveOf peer := by
  rw [PeerAdmission.held,h.counted]
  split
  · next hzero => simp [hzero]
  · rfl

theorem Balanced.mem_iff {self : Ledger} (h : self.Balanced) (peer : PeerId) :
    peer ∈ self.admission.inFlight ↔ 1 ≤ self.liveOf peer := by
  rw [← Std.ExtTreeMap.isSome_getElem?_iff_mem,h.counted]
  split
  · next hzero => simp [hzero]
  · next hpos => simpa using Nat.one_le_iff_ne_zero.mpr hpos

theorem new_balanced (cap : ℕ+) : (new cap).Balanced where
  counted peer := by simp [new,PeerAdmission.new,liveOf]
  bounded peer := by simp [new,liveOf]

theorem liveOf_cons (self : Ledger) (admission : PeerAdmission) (guard : AdmitGuard)
    (peer : PeerId) : liveOf ⟨admission,guard :: self.live⟩ peer =
      self.liveOf peer + if guard.peer = peer then 1 else 0 := by
  cases guard with
  | mk q => simp [liveOf,List.count_cons]

theorem liveOf_erase {self : Ledger} {guard : AdmitGuard} (h : guard ∈ self.live)
    (admission : PeerAdmission) (peer : PeerId) :
    liveOf ⟨admission,self.live.erase guard⟩ peer + (if guard.peer = peer then 1 else 0) =
      self.liveOf peer := by
  have hcount := (List.perm_cons_erase h).count_eq ⟨peer⟩
  rw [liveOf,liveOf,hcount]
  cases guard with
  | mk q => simp [List.count_cons]

theorem Balanced.ask {self : Ledger} (h : self.Balanced) (peer : PeerId) :
    Balanced ⟨(self.admission.tryAdmit peer).2,
      (self.admission.tryAdmit peer).1.toList ++ self.live⟩ := by
  have hheld := h.held peer
  by_cases hfull : self.admission.cap ≤ self.admission.held peer
  · -- A refusal writes back the entry it has found; the bound is not zero, so there was one.
    have hpos := self.admission.positive
    rw [PeerAdmission.tryAdmit_of_full hfull]
    refine ⟨fun other => ?_,h.bounded⟩
    change (self.admission.inFlight.insert peer _)[other]? =
      if self.liveOf other = 0 then none else some (self.liveOf other)
    by_cases hother : peer = other
    · subst hother
      rw [Std.ExtTreeMap.getElem?_insert_self,hheld,if_neg (by omega)]
    · rw [Std.ExtTreeMap.getElem?_insert,if_neg (by simpa using hother)]
      exact h.counted other
  · have hroom := Nat.lt_of_not_le hfull
    rw [PeerAdmission.tryAdmit_of_room hroom]
    constructor
    · intro other
      simp only [Option.toList_some,List.singleton_append,liveOf_cons]
      by_cases hother : peer = other
      · subst hother
        simp [hheld]
      · simpa [Std.ExtTreeMap.getElem?_insert,hother] using h.counted other
    · intro other
      simp only [Option.toList_some,List.singleton_append,liveOf_cons]
      have hbound := h.bounded other
      by_cases hother : peer = other
      · subst hother
        simp only [if_true]
        omega
      · simpa [hother] using hbound

theorem Balanced.drop {self : Ledger} (h : self.Balanced) {guard : AdmitGuard}
    (hlive : guard ∈ self.live) :
    Balanced ⟨self.admission.release guard,self.live.erase guard⟩ := by
  have hcounts := liveOf_erase hlive (self.admission.release guard)
  constructor
  · intro other
    have hcount := hcounts other
    have hentry := h.counted other
    by_cases hother : guard.peer = other
    · subst hother
      rw [if_pos rfl] at hcount
      rw [PeerAdmission.getElem?_release_self,hentry,if_neg (by omega),Option.bind_some,
        ← hcount,Nat.add_sub_cancel]
    · rw [if_neg hother] at hcount
      rw [PeerAdmission.getElem?_release_of_ne _ hother,hentry,← hcount,Nat.add_zero]
  · intro other
    have hbound := h.bounded other
    have hcount := hcounts other
    rw [PeerAdmission.cap_release]
    omega

theorem Balanced.step {self next : Ledger} {event : SlotEvent} {answer : Option AdmitGuard}
    (h : self.Balanced) (hstep : Step self event answer next) : next.Balanced := by
  cases hstep with
  | ask peer => exact h.ask peer
  | drop hlive => exact h.drop hlive

theorem cap_of_step {self next : Ledger} {event : SlotEvent} {answer : Option AdmitGuard}
    (hstep : Step self event answer next) : next.admission.cap = self.admission.cap := by
  cases hstep with
  | ask peer => exact PeerAdmission.cap_tryAdmit _ _
  | drop hlive => exact PeerAdmission.cap_release _ _

theorem balanced_of_run {cap : ℕ+} {events : List SlotEvent} {answers : List (Option AdmitGuard)}
    {ledger : Ledger} (hrun : Run Step (new cap) events answers ledger) :
    ledger.Balanced ∧ ledger.admission.cap = cap :=
  hrun.preserves (fun ledger => ledger.Balanced ∧ ledger.admission.cap = (cap : Nat))
    ⟨new_balanced cap,rfl⟩ fun h hstep => ⟨h.1.step hstep,(cap_of_step hstep).trans h.2⟩

/-- Two ledgers that are the same to a peer. -/
structure SameFor (peer : PeerId) (a b : Ledger) : Prop where
  cap : a.admission.cap = b.admission.cap
  entry : a.admission.inFlight[peer]? = b.admission.inFlight[peer]?
  guards : a.liveOf peer = b.liveOf peer

theorem SameFor.held {peer : PeerId} {a b : Ledger} (h : SameFor peer a b) :
    a.admission.held peer = b.admission.held peer := by
  rw [PeerAdmission.held,PeerAdmission.held,h.entry]

theorem SameFor.answer {peer : PeerId} {a b : Ledger} (h : SameFor peer a b) :
    (a.admission.tryAdmit peer).1 = (b.admission.tryAdmit peer).1 := by
  simp only [PeerAdmission.tryAdmit,h.held,h.cap]
  split <;> rfl

theorem SameFor.other {peer : PeerId} {a a' b : Ledger} {event : SlotEvent}
    {answer : Option AdmitGuard} (h : SameFor peer a b) (hstep : Step a event answer a')
    (hother : event.peer ≠ peer) : SameFor peer a' b := by
  refine ⟨(cap_of_step hstep).trans h.cap,?_,?_⟩
  · cases hstep with
    | ask q => exact (PeerAdmission.getElem?_tryAdmit_of_ne _ hother).trans h.entry
    | drop hlive => exact (PeerAdmission.getElem?_release_of_ne _ hother).trans h.entry
  · rw [← h.guards]
    cases hstep with
    | ask q =>
      have hq : q ≠ peer := hother
      by_cases hfull : a.admission.cap ≤ a.admission.held q
      · rw [PeerAdmission.tryAdmit_of_full hfull]
        rfl
      · rw [PeerAdmission.tryAdmit_of_room (Nat.lt_of_not_le hfull)]
        simp [liveOf_cons,hq]
    | @drop guard hlive =>
      have hcount := liveOf_erase hlive (a.admission.release guard) peer
      rwa [if_neg (show guard.peer ≠ peer from hother),Nat.add_zero] at hcount

theorem SameFor.own {peer : PeerId} {a a' b : Ledger} {event : SlotEvent}
    {answer : Option AdmitGuard} (h : SameFor peer a b) (hstep : Step a event answer a')
    (hown : event.peer = peer) : ∃ b', Step b event answer b' ∧ SameFor peer a' b' := by
  cases hstep with
  | ask q =>
    obtain rfl : q = peer := hown
    have hanswer := h.answer
    refine ⟨_,hanswer ▸ Step.ask b q,?_,?_,?_⟩
    · simp [h.cap]
    · rw [PeerAdmission.getElem?_tryAdmit_self,PeerAdmission.getElem?_tryAdmit_self,h.held,h.cap]
    · simpa [liveOf,hanswer,List.count_append] using h.guards
  | @drop guard hlive =>
    obtain rfl : guard.peer = peer := hown
    have hcount : 0 < a.liveOf guard.peer := List.count_pos_iff.mpr hlive
    rw [h.guards] at hcount
    have hlive' : guard ∈ b.live := List.count_pos_iff.mp hcount
    refine ⟨_,Step.drop hlive',?_,?_,?_⟩
    · simp [h.cap]
    · rw [PeerAdmission.getElem?_release_self,PeerAdmission.getElem?_release_self,h.entry]
    · have hafter := liveOf_erase hlive (a.admission.release guard) guard.peer
      have hafter' := liveOf_erase hlive' (b.admission.release guard) guard.peer
      have hguards := h.guards
      omega

def ownAnswers (peer : PeerId) (events : List SlotEvent) (answers : List (Option AdmitGuard)) :
    List (Option AdmitGuard) :=
  ((events.zip answers).filter fun entry => entry.1.peer = peer).map Prod.snd

theorem run_own {start ledger : Ledger} {events : List SlotEvent}
    {answers : List (Option AdmitGuard)} (hrun : Run Step start events answers ledger)
    (peer : PeerId) : ∃ own, Run Step start (events.filter fun event => event.peer = peer)
      (ownAnswers peer events answers) own ∧ SameFor peer ledger own := by
  refine hrun.invariant (fun events answers ledger => ∃ own, Run Step start
    (events.filter fun event => event.peer = peer) (ownAnswers peer events answers) own ∧
      SameFor peer ledger own) ⟨start,Run.nil start,rfl,rfl,rfl⟩ ?_
  rintro events answers ledger event answer next hprior ⟨own,hown,hsame⟩ hstep
  rw [List.filter_append,ownAnswers,List.zip_append hprior.length_eq,List.filter_append,
    List.map_append]
  by_cases hpeer : event.peer = peer
  · obtain ⟨own',hstep',hsame'⟩ := hsame.own hstep hpeer
    refine ⟨own',?_,hsame'⟩
    simpa [hpeer,ownAnswers] using hown.snoc hstep'
  · refine ⟨own,?_,hsame.other hstep hpeer⟩
    simpa [hpeer,ownAnswers] using hown

/-- After any interleaving of admissions and drops, the map has the number of live guards for each
peer and no entry without one. The number stays within the cap, an admission is refused exactly
there, and the run of a peer's own events gives the peer the same answers. -/
theorem admission_accounts {cap : ℕ+} {events : List SlotEvent}
    {answers : List (Option AdmitGuard)} {ledger : Ledger}
    (hrun : Run Step (new cap) events answers ledger) (peer : PeerId) :
    ledger.admission.held peer = ledger.liveOf peer ∧
    (peer ∈ ledger.admission.inFlight ↔ 1 ≤ ledger.liveOf peer) ∧
    ledger.liveOf peer ≤ cap ∧
    ((ledger.admission.tryAdmit peer).1 = none ↔ ledger.liveOf peer = cap) ∧
    ∃ own, Run Step (new cap) (events.filter fun event => event.peer = peer)
        (ownAnswers peer events answers) own ∧
      (own.admission.tryAdmit peer).1 = (ledger.admission.tryAdmit peer).1 := by
  obtain ⟨hbalanced,hcap⟩ := balanced_of_run hrun
  have hheld := hbalanced.held peer
  have hbound := hbalanced.bounded peer
  rw [hcap] at hbound
  refine ⟨hheld,hbalanced.mem_iff peer,hbound,?_,?_⟩
  · rw [PeerAdmission.tryAdmit_eq_none,hheld,hcap]
    exact ⟨fun h => le_antisymm hbound h,fun h => h.ge⟩
  · obtain ⟨own,hown,hsame⟩ := run_own hrun peer
    exact ⟨own,hown,hsame.answer.symm⟩

theorem floodPeer_nonempty : "16Uiu3" ≠ "" := by decide

def floodPeer : PeerId := ⟨"16Uiu3",floodPeer_nonempty⟩

/-- A peer at its cap is refused, another is not, and a drop leaves no entry. -/
theorem admission_accounts_pair : ∃ answers ledger, Run Step (new 1)
      [.ask floodPeer,.ask floodPeer,.drop ⟨floodPeer⟩,.ask votePeer] answers ledger ∧
    answers = [some ⟨floodPeer⟩,none,none,some ⟨votePeer⟩] ∧
    floodPeer ∉ ledger.admission.inFlight ∧ (ledger.admission.tryAdmit votePeer).1 = none := by
  have hrun := (((Run.single (Step.ask (new 1) floodPeer)).snoc
    (Step.ask _ floodPeer)).snoc (@Step.drop _ ⟨floodPeer⟩ (by decide +kernel))).snoc
      (Step.ask _ votePeer)
  refine ⟨_,_,hrun,by decide +kernel,?_,?_⟩
  · rw [(admission_accounts hrun floodPeer).2.1]
    decide +kernel
  · rw [(admission_accounts hrun votePeer).2.2.2.1]
    decide +kernel

theorem forward_cases [Snappy] {α : Type} [Decode α] {peer : PeerId} (data : List UInt8)
    (cached : Option (List UInt8)) {admission admitted : PeerAdmission}
    (tx : Channel (AdmitGuard × α)) (h : admission.tryAdmit peer = (some ⟨peer⟩,admitted)) :
    forward peer data cached admission tx = (admitted.release ⟨peer⟩,tx) ∨
      ∃ value, forward peer data cached admission tx =
        (admitted,{ tx with queue := tx.queue ++ [(⟨peer⟩,value)] }) := by
  unfold forward
  rw [h]
  dsimp only
  split
  · exact .inl rfl
  · next value _ =>
    by_cases hroom : tx.closed ∨ tx.capacity ≤ tx.queue.length
    · exact .inl (by simp [Channel.trySend,hroom])
    · exact .inr ⟨value,by simp [Channel.trySend,hroom]⟩

theorem forward_steps [Snappy] {α : Type} [Decode α] (peer : PeerId) (data : List UInt8)
    (cached : Option (List UInt8)) (self : Ledger) (tx : Channel (AdmitGuard × α)) :
    ∃ events answers next, Run Step self events answers next ∧
      (forward peer data cached self.admission tx).1 = next.admission ∧
      ((forward peer data cached self.admission tx).2 = tx ∧ next.live = self.live ∨
        ∃ value, (forward peer data cached self.admission tx).2.queue =
            tx.queue ++ [(⟨peer⟩,value)] ∧ next.live = ⟨peer⟩ :: self.live) := by
  have hasked := Run.single (Step.ask self peer)
  by_cases hfull : self.admission.cap ≤ self.admission.held peer
  · have hrefused := PeerAdmission.tryAdmit_of_full hfull
    rw [hrefused] at hasked
    refine ⟨_,_,_,hasked,?_,.inl ⟨?_,rfl⟩⟩
    · simp [forward,hrefused]
    · simp [forward,hrefused]
  · have hgranted := PeerAdmission.tryAdmit_of_room (Nat.lt_of_not_le hfull)
    rw [hgranted] at hasked
    rcases forward_cases data cached tx hgranted with hdropped | ⟨value,hsent⟩
    · have hdrop := hasked.snoc (@Step.drop _ ⟨peer⟩ (by simp))
      rw [hdropped]
      exact ⟨_,_,_,hdrop,rfl,.inl ⟨rfl,by simp⟩⟩
    · rw [hsent]
      exact ⟨_,_,_,hasked,rfl,.inr ⟨value,rfl,rfl⟩⟩

end Ledger

end Devnet.P2p
