import Devnet.Node.Assignments

/-!
Whole runs of the consensus loop, as the calls that they make on the service. The loop asks a
validator for a signature when it proposes and when it attests. Over all nodes that share one
assignment file, and for as long as they run, nobody is asked twice for one slot.
-/

set_option autoImplicit false

namespace Devnet.Node
open Machine Devnet.Types Devnet.Ssz Devnet.Protocol Devnet.ForkChoice Devnet.Engine
  Devnet.Storage Devnet.Duties Devnet.Chain Tables

def backfillCalls (deliveries : List Delivery) : List NodeEvent :=
  deliveries.map fun d => .importBlock d.verifier d.signed .skip d.fault

def gossipCalls (round : Round) : List NodeEvent :=
  round.blocks.map (fun d => .importBlock d.verifier d.signed .enforce d.fault) ++
    round.votes.map .importAttestation

def attesting (proposers : LocalProposers) (round : Round) (slot : Slot) :
    List (ValidatorIndex × Turn) :=
  (round.attesters.arrange (proposers.attestersForSlot slot)).filterMap
    fun validator => (round.turn validator).map fun turn => (validator,turn)

def dutyCalls (proposers : LocalProposers) (round : Round) (duty : Slot × Nat) : List NodeEvent :=
  if duty.2 = 0 then
    (proposers.proposerForSlot duty.1).toList.map fun validator =>
      .produceBlock round.order duty.1 validator round.signer round.fault
  else if duty.2 = voteDueInterval then
    (attesting proposers round duty.1).flatMap fun attester =>
      backfillCalls attester.2.backfill ++
        [.produceAttestation duty.1 attester.1 attester.2.signer]
  else []

def asks : NodeEvent → Option (ValidatorIndex × Slot)
  | .produceBlock _ slot validator _ _ => some (validator,slot)
  | .produceAttestation slot validator _ => some (validator,slot)
  | _ => none

theorem asks_backfillCalls (deliveries : List Delivery) :
    (backfillCalls deliveries).filterMap asks = [] := by
  simp [backfillCalls,asks]

theorem asks_gossipCalls (round : Round) : (gossipCalls round).filterMap asks = [] := by
  simp [gossipCalls,asks]

theorem asks_dutyCalls (proposers : LocalProposers) (round : Round) (duty : Slot × Nat) :
    (dutyCalls proposers round duty).filterMap asks =
      (if duty.2 = 0 then (proposers.proposerForSlot duty.1).toList
        else if duty.2 = voteDueInterval then (attesting proposers round duty.1).map Prod.fst
        else []).map fun validator => (validator,duty.1) := by
  unfold dutyCalls
  split
  · simp [List.filterMap_map,Function.comp_def,asks]
  · split
    · simp only [List.filterMap_flatMap,List.filterMap_append,asks_backfillCalls,List.nil_append,
        List.map_map]
      simp [asks,Function.comp_def,← List.map_eq_flatMap]
    · rfl

theorem attesting_eq (proposers : LocalProposers) (round : Round) (slot : Slot) :
    (attesting proposers round slot).map Prod.fst =
      (round.attesters.arrange (proposers.attestersForSlot slot)).filter
        fun validator => (round.turn validator).isSome := by
  unfold attesting
  induction round.attesters.arrange (proposers.attestersForSlot slot) with
  | nil => rfl
  | cons v rest ih =>
    cases hturn : round.turn v with
    | none => simpa [hturn] using ih
    | some turn => simpa [hturn] using ih

/-- The tick at which the loop asks a validator to sign for a slot. -/
def dueTick (proposers : LocalProposers) (ask : ValidatorIndex × Slot) : Nat :=
  if proposers.proposerForSlot ask.2 = some ask.1 then ask.2.get*intervalsPerSlot
  else ask.2.get*intervalsPerSlot+voteDueInterval

theorem dueTick_not_last (proposers : LocalProposers) (ask : ValidatorIndex × Slot) :
    dueTick proposers ask ≠ 2^64-1 := by
  simp only [dueTick,voteDueInterval,intervalsPerSlot]
  split <;> omega

theorem asked_when_due {proposers : LocalProposers} {round : Round} {tick : Fin (2^64)}
    {ask : ValidatorIndex × Slot}
    (h : ask ∈ (dutyCalls proposers round (slotIntervalAt tick)).filterMap asks) :
    dueTick proposers ask = tick.val ∧ ask.1 ∈ proposers.owned := by
  rw [asks_dutyCalls] at h
  obtain ⟨v,hv,rfl⟩ := List.mem_map.mp h
  split at hv
  · next hzero =>
    have hproposer : proposers.proposerForSlot (slotIntervalAt tick).1 = some v := by
      simpa using hv
    refine ⟨?_,(LocalProposers.proposerForSlot_eq_some.mp hproposer).2⟩
    rw [dueTick,if_pos hproposer]
    simp only [slotIntervalAt,intervalsPerSlot] at hzero ⊢
    omega
  · split at hv
    · next hdue =>
      rw [attesting_eq] at hv
      have hattester := (round.attesters.perm _).mem_iff.mp (List.mem_filter.mp hv).1
      obtain ⟨howned,hother⟩ := List.mem_filter.mp hattester
      have hnot : proposers.proposerForSlot (slotIntervalAt tick).1 ≠ some v :=
        fun heq => by simp [heq] at hother
      refine ⟨?_,howned⟩
      rw [dueTick,if_neg hnot]
      simp only [slotIntervalAt,intervalsPerSlot,voteDueInterval] at hdue ⊢
      omega
    · cases hv

theorem asked_of_due {proposers : LocalProposers} {round : Round} {tick : Fin (2^64)}
    {ask : ValidatorIndex × Slot} (hdue : dueTick proposers ask = tick.val)
    (howned : ask.1 ∈ proposers.owned) (hturn : (round.turn ask.1).isSome = true) :
    ask ∈ (dutyCalls proposers round (slotIntervalAt tick)).filterMap asks := by
  obtain ⟨v,slot⟩ := ask
  have hslot : (slotIntervalAt tick).1 = slot ∧ (slotIntervalAt tick).2 =
      if proposers.proposerForSlot slot = some v then 0 else voteDueInterval := by
    unfold dueTick intervalsPerSlot voteDueInterval at hdue
    split at hdue
    · next hproposer =>
      simp only [hproposer,if_true,slotIntervalAt,intervalsPerSlot] at hdue ⊢
      exact ⟨Slot.ext_get (by simp only; omega),by omega⟩
    · next hother =>
      simp only [hother,if_false,slotIntervalAt,intervalsPerSlot,voteDueInterval] at hdue ⊢
      exact ⟨Slot.ext_get (by simp only; omega),by omega⟩
  rw [asks_dutyCalls,hslot.1,hslot.2]
  refine List.mem_map.mpr ⟨v,?_,rfl⟩
  by_cases hproposer : proposers.proposerForSlot slot = some v
  · simp [hproposer]
  · have hattester : v ∈ proposers.attestersForSlot slot :=
      List.mem_filter.mpr ⟨howned,by simpa using Ne.symm hproposer⟩
    rw [if_neg hproposer,if_neg (by decide),if_pos rfl,attesting_eq]
    exact List.mem_filter.mpr ⟨(round.attesters.perm _).mem_iff.mpr hattester,hturn⟩

theorem nodup_asked {proposers : LocalProposers} (h : proposers.owned.Nodup) (round : Round)
    (duty : Slot × Nat) : ((dutyCalls proposers round duty).filterMap asks).Nodup := by
  rw [asks_dutyCalls]
  refine List.Nodup.map (fun a b hab => (Prod.mk.inj hab).1) ?_
  split
  · cases proposers.proposerForSlot duty.1 <;> simp
  · split
    · rw [attesting_eq]
      exact ((round.attesters.perm _).nodup_iff.mpr (h.filter _)).filter _
    · exact List.nodup_nil

section Owners
variable {raw : BTreeMap String (List UInt64)} {total : UInt64}

theorem nodup_owned {name : String} {node : LocalProposers}
    (hnode : nodeOf ⟨groupsOf raw,total⟩ name = some node) : node.owned.Nodup := by
  obtain ⟨row,-,rfl⟩ := nodeOf_eq_some.mp hnode
  exact List.nodup_dedup _

theorem Partition.owner (h : Partition raw total) {v : ValidatorIndex} (hv : v.get < total.toNat) :
    ∃ name node, name ∈ (groupsOf raw).keys ∧ nodeOf ⟨groupsOf raw,total⟩ name = some node ∧
      v ∈ node.owned := by
  have hmem : v.get ∈ (rowsOf raw).flatten.map UInt64.toNat :=
    h.complete.mem_iff.mpr (List.mem_range.mpr hv)
  obtain ⟨index,hindex,hv⟩ := List.mem_map.mp hmem
  obtain ⟨row,hrow,hindex⟩ := List.mem_flatten.mp hindex
  obtain ⟨name,hname⟩ := mem_rowsOf.mp hrow
  refine ⟨name,_,?_,nodeOf_eq_some.mpr ⟨row,hname,rfl⟩,?_⟩
  · rw [Std.ExtTreeMap.mem_keys,Std.ExtTreeMap.mem_iff_isSome_getElem?,groupsOf,
      Std.ExtTreeMap.getElem?_map,hname]
    rfl
  · exact List.mem_dedup.mpr (List.mem_map.mpr ⟨index,hindex,ValidatorIndex.ext_get hv⟩)

theorem Partition.one_owner (h : Partition raw total) {name name' : String} {node node' : LocalProposers}
    (hnode : nodeOf ⟨groupsOf raw,total⟩ name = some node)
    (hnode' : nodeOf ⟨groupsOf raw,total⟩ name' = some node') {v : ValidatorIndex}
    (hv : v ∈ node.owned) (hv' : v ∈ node'.owned) : name = name' := by
  obtain ⟨row,hrow,rfl⟩ := nodeOf_eq_some.mp hnode
  obtain ⟨row',hrow',rfl⟩ := nodeOf_eq_some.mp hnode'
  obtain ⟨index,hindex,rfl⟩ := List.mem_map.mp (List.mem_dedup.mp hv)
  obtain ⟨index',hindex',heq⟩ := List.mem_map.mp (List.mem_dedup.mp hv')
  obtain rfl := validatorIndex_injective heq
  exact h.apart hrow hrow' hindex hindex'

end Owners

section
variable [HashPair]

def tickCalls (round : Round) (self : Runner) : List NodeEvent :=
  backfillCalls round.backfill ++ gossipCalls round ++
    dutyCalls self.proposers round (slotIntervalAt self.tick) ++
    [.tickInterval (runTick round self).2.hasProposal]

theorem performAll_append (calls later : List NodeEvent) (chain : Service) :
    performAll (calls ++ later) chain = performAll later (performAll calls chain) := by
  induction calls generalizing chain with
  | nil => rfl
  | cons call rest ih => exact ih (perform call chain)

theorem performAll_attesting (slot : Slot) (duties : List (ValidatorIndex × Turn))
    (chain : Service) :
    performAll (duties.flatMap fun attester => backfillCalls attester.2.backfill ++
        [.produceAttestation slot attester.1 attester.2.signer]) chain =
      (trace (attestOne slot) duties chain).2 := by
  induction duties generalizing chain with
  | nil => rfl
  | cons duty rest ih =>
    rw [List.flatMap_cons,performAll_append,performAll_append,ih]
    rfl

theorem runTick_calls (round : Round) (self : Runner) :
    (runTick round self).2.chain = performAll (tickCalls round self) self.chain := by
  rw [tickCalls,performAll_append,performAll_append,performAll_append]
  have hlast : ∀ (hasProposal : Bool) (chain : Service),
      performAll [.tickInterval hasProposal] chain = perform (.tickInterval hasProposal) chain :=
    fun _ _ => rfl
  rw [hlast]
  have hdrained : performAll (gossipCalls round) (performAll (backfillCalls round.backfill)
      self.chain) = drainGossip round (backfilled round.backfill self.chain) := rfl
  rw [hdrained]
  unfold runTick dutyCalls
  dsimp only
  split
  · unfold maybePropose
    split
    · next hnone => simp [hnone,performAll]
    · next v hsome => simp [hsome,performAll]
  · split
    · rw [performAll_attesting]
      rfl
    · rfl

theorem asks_tickCalls (round : Round) (self : Runner) :
    (tickCalls round self).filterMap asks =
      (dutyCalls self.proposers round (slotIntervalAt self.tick)).filterMap asks := by
  simp [tickCalls,asks_backfillCalls,asks_gossipCalls,asks]

theorem proposers_runTick (round : Round) (self : Runner) :
    (runTick round self).2.proposers = self.proposers := by
  unfold runTick
  dsimp only
  split
  · rfl
  · split <;> rfl

def calling (round : Round) (self : Runner) : List NodeEvent × Runner :=
  (tickCalls round self,(runTick round self).2)

def loopCalls (rounds : List Round) (self : Runner) : List NodeEvent :=
  (trace calling rounds self).1.flatten

theorem loopCalls_cons (round : Round) (rest : List Round) (self : Runner) :
    loopCalls (round :: rest) self =
      tickCalls round self ++ loopCalls rest (runTick round self).2 := rfl

theorem loop_calls (rounds : List Round) (self : Runner) :
    (trace runTick rounds self).2.chain = performAll (loopCalls rounds self) self.chain := by
  induction rounds generalizing self with
  | nil => rfl
  | cons round rest ih =>
    rw [loopCalls_cons,performAll_append,← runTick_calls]
    exact ih _

def asked (rounds : List Round) (self : Runner) : List (ValidatorIndex × Slot) :=
  (loopCalls rounds self).filterMap asks

theorem asked_cons (round : Round) (rest : List Round) (self : Runner) :
    asked (round :: rest) self =
      (dutyCalls self.proposers round (slotIntervalAt self.tick)).filterMap asks ++
        asked rest (runTick round self).2 := by
  rw [asked,loopCalls_cons,List.filterMap_append,asks_tickCalls]
  rfl

/-- From a tick on nobody is asked who was due before, and nobody twice. The counter stands
still at its end, but nobody is due there. -/
theorem asked_from (rounds : List Round) (self : Runner) (h : self.proposers.owned.Nodup) :
    (asked rounds self).Nodup ∧ ∀ ask ∈ asked rounds self,
      self.tick.val ≤ dueTick self.proposers ask := by
  induction rounds generalizing self with
  | nil => exact ⟨List.nodup_nil,by simp [asked,loopCalls,trace]⟩
  | cons round rest ih =>
    have hsame := proposers_runTick round self
    obtain ⟨hnodup,hlater⟩ := ih (runTick round self).2 (by rwa [hsame])
    rw [hsame,(runTick_clocks round self).2.2.1] at hlater
    rw [asked_cons]
    refine ⟨(nodup_asked h round _).append hnodup ?_,?_⟩
    · intro ask hnow hthen
      have hdue := (asked_when_due hnow).1
      have hnext := hlater ask hthen
      have hnotLast := dueTick_not_last self.proposers ask
      have hlt := self.tick.isLt
      rw [saturatingSucc,dif_pos (by omega)] at hnext
      simp only at hnext
      omega
    · intro ask hask
      rcases List.mem_append.mp hask with hnow | hthen
      · exact (asked_when_due hnow).1.ge
      · refine le_trans ?_ (hlater ask hthen)
        unfold saturatingSucc
        split
        · exact Nat.le_succ _
        · exact le_rfl

theorem asked_before (rounds : List Round) (self : Runner) {ask : ValidatorIndex × Slot}
    (h : ask ∈ asked rounds self) :
    dueTick self.proposers ask < self.tick.val+rounds.length ∧ ask.1 ∈ self.proposers.owned := by
  induction rounds generalizing self with
  | nil => simp [asked,loopCalls,trace] at h
  | cons round rest ih =>
    rw [asked_cons] at h
    rcases List.mem_append.mp h with hnow | hthen
    · obtain ⟨hdue,howned⟩ := asked_when_due hnow
      rw [hdue]
      exact ⟨Nat.lt_add_of_pos_right (Nat.succ_pos _),howned⟩
    · obtain ⟨hlater,howned⟩ := ih (runTick round self).2 hthen
      rw [proposers_runTick] at howned
      refine ⟨?_,howned⟩
      rw [proposers_runTick,(runTick_clocks round self).2.2.1] at hlater
      unfold saturatingSucc at hlater
      simp only [List.length_cons]
      split at hlater
      · simp only at hlater
        omega
      · omega

theorem asked_all (rounds : List Round) (self : Runner) {ask : ValidatorIndex × Slot}
    (howned : ask.1 ∈ self.proposers.owned) (hfrom : self.tick.val ≤ dueTick self.proposers ask)
    (hto : dueTick self.proposers ask < self.tick.val+rounds.length)
    (hclock : dueTick self.proposers ask < 2^64)
    (hturn : ∀ round ∈ rounds, (round.turn ask.1).isSome = true) : ask ∈ asked rounds self := by
  induction rounds generalizing self with
  | nil =>
    simp only [List.length_nil] at hto
    omega
  | cons round rest ih =>
    rw [asked_cons]
    by_cases hdue : dueTick self.proposers ask = self.tick.val
    · exact List.mem_append_left _ (asked_of_due hdue howned (hturn round List.mem_cons_self))
    · refine List.mem_append_right _ (ih (runTick round self).2 ?_ ?_ ?_ ?_ ?_)
      · rwa [proposers_runTick]
      · rw [proposers_runTick,(runTick_clocks round self).2.2.1,saturatingSucc,
          dif_pos (by omega)]
        simp only
        omega
      · rw [proposers_runTick,(runTick_clocks round self).2.2.1,saturatingSucc,
          dif_pos (by omega)]
        simp only [List.length_cons] at hto ⊢
        omega
      · rwa [proposers_runTick]
      · exact fun round hround => hturn round (List.mem_cons_of_mem _ hround)

/-- Everyone asked by the nodes of an assignment file, each in a run of its own. -/
def askedByAll (assignments : ValidatorAssignments) (chain : String → Service)
    (rounds : String → List Round) : List (ValidatorIndex × Slot) :=
  assignments.groups.keys.flatMap fun name =>
    (nodeOf assignments name).elim [] fun node => asked (rounds name) (.start (chain name) node)

/-- The nodes of an assignment file, each running its loop for as long as it likes on whatever
comes in, never ask a validator twice for one slot; and once all have run through a slot
without timeouts, every validator of the registry has been asked for it. -/
theorem network_asks_once {raw : BTreeMap String (List UInt64)}
    {assignments : ValidatorAssignments} (hload : fromCanonical raw = .ok assignments)
    (chain : String → Service) (rounds : String → List Round) :
    (askedByAll assignments chain rounds).Nodup ∧
    ∀ (slot : Slot) (v : ValidatorIndex), v.get < assignments.totalValidators.toNat →
      slot.get*intervalsPerSlot+voteDueInterval < 2^64 →
      (∀ name, slot.get*intervalsPerSlot+voteDueInterval < (rounds name).length) →
      (∀ name, ∀ round ∈ rounds name, (round.turn v).isSome = true) →
      (v,slot) ∈ askedByAll assignments chain rounds := by
  obtain ⟨total,hraw,hok⟩ : ∃ total, Partition raw total ∧
      fromCanonical raw = .ok ⟨groupsOf raw,total⟩ := by
    refine (fromCanonical_cases raw).resolve_right ?_
    rintro ⟨-,e,he⟩
    cases he.symm.trans hload
  obtain rfl := Except.ok.inj (hok.symm.trans hload)
  constructor
  · refine List.nodup_flatMap.mpr ⟨?_,?_⟩
    · intro name _
      cases hnode : nodeOf ⟨groupsOf raw,total⟩ name with
      | none => exact List.nodup_nil
      | some node => exact (asked_from _ _ (nodup_owned hnode)).1
    · refine List.Pairwise.imp ?_ (Std.ExtTreeMap.nodup_keys (t := groupsOf raw))
      intro name name' hne ask hask hask'
      cases hnode : nodeOf ⟨groupsOf raw,total⟩ name with
      | none => simp [hnode] at hask
      | some node =>
        cases hnode' : nodeOf ⟨groupsOf raw,total⟩ name' with
        | none => simp [hnode'] at hask'
        | some node' =>
          simp only [hnode,Option.elim_some] at hask
          simp only [hnode',Option.elim_some] at hask'
          have howned := (asked_before _ _ hask).2
          have howned' := (asked_before _ _ hask').2
          exact hne (hraw.one_owner hnode hnode' howned howned')
  · intro slot v hv hclock hlong hturn
    obtain ⟨name,node,hname,hnode,howned⟩ := hraw.owner hv
    refine List.mem_flatMap.mpr ⟨name,hname,?_⟩
    simp only [hnode,Option.elim_some]
    have hdue : dueTick node (v,slot) ≤ slot.get*intervalsPerSlot+voteDueInterval := by
      unfold dueTick
      split
      · exact Nat.le_add_right _ _
      · exact le_rfl
    have hrounds := hlong name
    refine asked_all (rounds name) (.start (chain name) node) howned (Nat.zero_le _) ?_ ?_ (hturn name)
    · show dueTick node (v,slot) < 0+(rounds name).length
      omega
    · show dueTick node (v,slot) < 2^64
      omega

end

section
attribute [local instance] mixPair

/-- Two nodes share three validators and run through slot 0. -/
theorem network_asks_once_pair : ∃ assignments, fromCanonical pairFile = .ok assignments ∧
    (askedByAll assignments (fun _ => soloService) (fun _ => [quiet,quiet,quiet])).Nodup ∧
    (validatorIndex 1,Slot.zero) ∈
      askedByAll assignments (fun _ => soloService) (fun _ => [quiet,quiet,quiet]) := by
  have hload : (fromCanonical pairFile).toOption.map (·.totalValidators) = some 3 := by
    decide +kernel
  cases hfile : fromCanonical pairFile with
  | error e => simp [hfile,Except.toOption] at hload
  | ok assignments =>
    have htotal : assignments.totalValidators = 3 := by
      simpa [hfile,Except.toOption] using hload
    obtain ⟨hnodup,hall⟩ := network_asks_once hfile (fun _ => soloService)
      (fun _ => [quiet,quiet,quiet])
    refine ⟨_,rfl,hnodup,hall _ _ ?_ (by decide) (fun _ => by decide) ?_⟩
    · rw [htotal]
      decide
    · intro _ round hround
      obtain rfl : round = quiet := by simpa using hround
      rfl

end

end Devnet.Node
