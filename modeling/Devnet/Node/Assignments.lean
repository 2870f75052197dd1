import Devnet.Node.ConsensusLoop
import Devnet.Lib.Tables

/-!
Which validators a node runs. The file assigns each group its indices; loading it checks that no
index comes twice and that the largest one is one less than their number, and leaves it to counting
that nothing is missing. Nodes that run a group each then share out the duties of a slot.
-/

set_option autoImplicit false

namespace Devnet.Node
open Machine Devnet.Types Devnet.Protocol Tables

/-- `char::is_whitespace`: the characters with the property White_Space. -/
def isWhitespace (c : Char) : Bool :=
  (9 ≤ c.toNat && c.toNat ≤ 13) || (0x2000 ≤ c.toNat && c.toNat ≤ 0x200A) ||
    [0x20,0x85,0xA0,0x1680,0x2028,0x2029,0x202F,0x205F,0x3000].contains c.toNat

def trim (text : List Char) : List Char :=
  ((text.dropWhile isWhitespace).reverse.dropWhile isWhitespace).reverse

def Blank (name : String) : Prop := ∀ c ∈ name.toList, isWhitespace c = true

theorem trim_eq_nil {name : String} : trim name.toList = [] ↔ Blank name := by
  rw [trim,List.reverse_eq_nil_iff,List.dropWhile_eq_nil_iff]
  constructor
  · intro h c hc
    rw [← List.takeWhile_append_dropWhile (p := isWhitespace) (l := name.toList),List.mem_append] at hc
    rcases hc with hc | hc
    · exact List.mem_takeWhile_imp hc
    · exact h c (List.mem_reverse.mpr hc)
  · intro h c hc
    exact h c ((List.dropWhile_sublist _).mem (List.mem_reverse.mp hc))

inductive DutiesError where
  | emptyValidatorGroupAssignment (name : String)
  | emptyAssignmentSet
  | duplicateValidatorAssignment (index : UInt64) (existingGroup conflictingGroup : String)
  | nonContiguousValidatorSet (maxIndex total : UInt64)
  deriving DecidableEq

structure ValidatorAssignments where
  groups : BTreeMap String (List ValidatorIndex)
  totalValidators : UInt64

def ValidatorAssignments.group (self : ValidatorAssignments) (groupName : String) :
    Option (List ValidatorIndex) :=
  self.groups[groupName]?

structure Roll where
  seen : HashMap UInt64 String
  maxIndex : UInt64
  total : UInt64
  groups : BTreeMap String (List ValidatorIndex)

def validatorIndex (index : UInt64) : ValidatorIndex := ⟨index.toNat,index.toNat_lt⟩

/-- One more index. The count is a word, and would start again after its last value. -/
def Roll.push (name : String) (self : Roll) (index : UInt64) : Roll :=
  { self with
    seen := self.seen.insert index name
    maxIndex := if self.maxIndex < index then index else self.maxIndex
    total := self.total+1 }

def Roll.enterIndex (name : String) (self : Roll) (index : UInt64) : Except DutiesError Roll :=
  match self.seen[index]? with
  | some existing => .error (.duplicateValidatorAssignment index existing name)
  | none => .ok (self.push name index)

def Roll.enterGroup (self : Roll) (entry : String × List UInt64) : Except DutiesError Roll :=
  if trim entry.1.toList = [] then .error (.emptyValidatorGroupAssignment entry.1)
  else if entry.2 = [] then .error (.emptyValidatorGroupAssignment entry.1)
  else do
    let roll ← entry.2.foldlM (Roll.enterIndex entry.1) self
    .ok { roll with groups := roll.groups.insert entry.1 (entry.2.map validatorIndex) }

def fromCanonical (raw : BTreeMap String (List UInt64)) :
    Except DutiesError ValidatorAssignments :=
  if raw.isEmpty = true then .error .emptyAssignmentSet
  else do
    let roll ← raw.toList.foldlM Roll.enterGroup ⟨∅,0,0,∅⟩
    if checkedAdd roll.maxIndex.toNat 1 ≠ some roll.total.toNat then
      .error (.nonContiguousValidatorSet roll.maxIndex roll.total)
    else .ok ⟨roll.groups,roll.total⟩

/-- The roll after some indices: they are all different, the largest is known, and so is their
number, as a word. -/
structure Roll.Counts (roll : Roll) (visited : List UInt64) : Prop where
  seen : ∀ index, index ∈ roll.seen ↔ index ∈ visited
  nodup : visited.Nodup
  most : ∀ index ∈ visited, index ≤ roll.maxIndex
  reached : roll.maxIndex ∈ visited ∨ visited = [] ∧ roll.maxIndex = 0
  total : roll.total = UInt64.ofNat visited.length

theorem Roll.Counts.push {roll : Roll} {visited : List UInt64} (h : roll.Counts visited)
    (name : String) {index : UInt64} (hnew : index ∉ visited) :
    (roll.push name index).Counts (visited ++ [index]) := by
  refine ⟨fun other => ?_,?_,fun other hother => ?_,.inl ?_,?_⟩
  · rw [Roll.push,Std.ExtTreeMap.mem_insert,h.seen,List.mem_append,List.mem_singleton,
      Std.LawfulEqCmp.compare_eq_iff_eq,or_comm,eq_comm]
  · rw [← List.concat_eq_append]
    exact h.nodup.concat hnew
  · have hle : other ≤ roll.maxIndex ∨ other = index :=
      (List.mem_append.mp hother).imp (h.most other) List.mem_singleton.mp
    simp only [Roll.push,UInt64.le_iff_toNat_le,UInt64.lt_iff_toNat_lt,← UInt64.toNat_inj] at hle ⊢
    split <;> omega
  · simp only [Roll.push,List.mem_append,List.mem_singleton]
    split
    · exact .inr rfl
    · next hlow =>
      rcases h.reached with hreached | ⟨-,hzero⟩
      · exact .inl hreached
      · rw [hzero,UInt64.lt_iff_toNat_lt] at hlow
        rw [hzero,← UInt64.toNat_inj]
        exact .inr (Nat.eq_zero_of_not_pos hlow).symm
  · rw [List.length_append,UInt64.ofNat_add,← h.total]
    rfl

theorem Roll.Counts.enterIndex {roll : Roll} {visited : List UInt64} (h : roll.Counts visited)
    (name : String) (index : UInt64) :
    (∃ next, Roll.enterIndex name roll index = .ok next ∧ next.Counts (visited ++ [index]) ∧
      next.groups = roll.groups) ∨
    ¬ (visited ++ [index]).Nodup ∧ ∃ e, Roll.enterIndex name roll index = .error e := by
  cases hseen : roll.seen[index]? with
  | some existing =>
    have hold : index ∈ visited := (h.seen index).mp (by simp [Std.ExtTreeMap.mem_iff_isSome_getElem?,hseen])
    refine .inr ⟨fun hnodup => ?_,_,by rw [Roll.enterIndex,hseen]⟩
    exact (List.disjoint_of_nodup_append hnodup) hold (List.mem_singleton_self index)
  | none =>
    have hnew : index ∉ visited := by
      rw [← h.seen index]
      simpa using hseen
    exact .inl ⟨roll.push name index,by rw [Roll.enterIndex,hseen],h.push name hnew,rfl⟩

theorem Roll.Counts.enterIndices {roll : Roll} {visited : List UInt64} (h : roll.Counts visited)
    (name : String) (indices : List UInt64) :
    (∃ next, indices.foldlM (Roll.enterIndex name) roll = .ok next ∧ next.Counts (visited ++ indices) ∧
      next.groups = roll.groups) ∨
    ¬ (visited ++ indices).Nodup ∧ ∃ e, indices.foldlM (Roll.enterIndex name) roll = .error e := by
  refine @foldlM_accepts _ _ _ (Roll.enterIndex name)
    (fun next taken => next.Counts (visited ++ taken) ∧ next.groups = roll.groups)
    (fun taken => (visited ++ taken).Nodup) ?_ ?_ indices roll [] ⟨by rwa [List.append_nil],rfl⟩
  · intro front rest hall
    rw [← List.append_assoc] at hall
    exact hall.of_append_left
  · rintro next taken index ⟨hnext,hgroups⟩
    rw [← List.append_assoc,← hgroups]
    exact hnext.enterIndex name index

structure Admissible (entries : List (String × List UInt64)) : Prop where
  named : ∀ entry ∈ entries, ¬ Blank entry.1 ∧ entry.2 ≠ []
  nodup : (entries.map Prod.snd).flatten.Nodup

structure Roll.Enters (roll : Roll) (entries : List (String × List UInt64)) : Prop where
  counts : roll.Counts (entries.map Prod.snd).flatten
  named : ∀ entry ∈ entries, ¬ Blank entry.1 ∧ entry.2 ≠ []
  groups : roll.groups = Std.ExtTreeMap.ofList
    (entries.map fun entry => (entry.1,entry.2.map validatorIndex)) compare

theorem Roll.Enters.enterGroup {roll : Roll} {entries : List (String × List UInt64)}
    (h : roll.Enters entries) (entry : String × List UInt64) :
    (∃ next, roll.enterGroup entry = .ok next ∧ next.Enters (entries ++ [entry])) ∨
    ¬ Admissible (entries ++ [entry]) ∧ ∃ e, roll.enterGroup entry = .error e := by
  have hentry : entry ∈ entries ++ [entry] := List.mem_append_right _ (List.mem_singleton_self _)
  have hparts : ((entries ++ [entry]).map Prod.snd).flatten =
      (entries.map Prod.snd).flatten ++ entry.2 := by
    simp
  unfold Roll.enterGroup
  by_cases hblank : trim entry.1.toList = []
  · rw [if_pos hblank]
    exact .inr ⟨fun hall => (hall.named entry hentry).1 (trim_eq_nil.mp hblank),_,rfl⟩
  by_cases hempty : entry.2 = []
  · rw [if_neg hblank,if_pos hempty]
    exact .inr ⟨fun hall => (hall.named entry hentry).2 hempty,_,rfl⟩
  rw [if_neg hblank,if_neg hempty]
  rcases h.counts.enterIndices entry.1 entry.2 with ⟨next,hnext,hcounts,hgroups⟩ | ⟨hnot,e,he⟩
  · rw [hnext]
    refine .inl ⟨_,rfl,⟨?_,?_,?_⟩⟩
    · rw [hparts]
      exact ⟨hcounts.seen,hcounts.nodup,hcounts.most,hcounts.reached,hcounts.total⟩
    · intro other hother
      rcases List.mem_append.mp hother with hother | hother
      · exact h.named other hother
      · rw [List.mem_singleton.mp hother]
        exact ⟨mt trim_eq_nil.mpr hblank,hempty⟩
    · rw [hgroups,h.groups,Std.ExtTreeMap.ofList_eq_foldl,Std.ExtTreeMap.ofList_eq_foldl,
        List.map_append,List.foldl_append]
      rfl
  · rw [he]
    exact .inr ⟨fun hall => hnot (hparts ▸ hall.nodup),e,rfl⟩

theorem enterGroups_cases (entries : List (String × List UInt64)) :
    (∃ roll, entries.foldlM Roll.enterGroup ⟨∅,0,0,∅⟩ = .ok roll ∧ roll.Enters entries) ∨
    ¬ Admissible entries ∧ ∃ e, entries.foldlM Roll.enterGroup ⟨∅,0,0,∅⟩ = .error e := by
  have hstart : Roll.Enters ⟨∅,0,0,∅⟩ [] := by
    refine ⟨⟨by simp,List.nodup_nil,by simp,.inr ⟨rfl,rfl⟩,rfl⟩,by simp,rfl⟩
  refine @foldlM_accepts _ _ _ Roll.enterGroup Roll.Enters Admissible ?_ ?_ entries _ [] hstart
  · intro front rest hall
    have hnodup := hall.nodup
    rw [List.map_append,List.flatten_append] at hnodup
    exact ⟨fun entry hentry => hall.named entry (List.mem_append_left _ hentry),
      hnodup.of_append_left⟩
  · intro roll done entry hroll
    exact hroll.enterGroup entry

section Counting
variable {roll : Roll} {visited : List UInt64}

theorem Roll.Counts.subperm (h : roll.Counts visited) :
    (visited.map UInt64.toNat).Subperm (List.range (roll.maxIndex.toNat+1)) := by
  refine List.subperm_of_subset (h.nodup.map fun _ _ => UInt64.toNat_inj.mp) fun n hn => ?_
  obtain ⟨index,hindex,rfl⟩ := List.mem_map.mp hn
  have hle := UInt64.le_iff_toNat_le.mp (h.most index hindex)
  exact List.mem_range.mpr (Nat.lt_succ_of_le hle)

theorem checkedAdd_eq_some {a b c : Nat} : checkedAdd a b = some c ↔ a+b = c ∧ c < 2^64 := by
  unfold checkedAdd
  split
  · next hlt =>
    rw [Option.some.injEq]
    exact ⟨fun h => ⟨h,h ▸ hlt⟩,fun h => h.1⟩
  · next hge =>
    refine iff_of_false (fun h => by cases h) fun h => ?_
    omega

/-- If there are as many as fit, they are all there. A count that had wrapped would be too small. -/
theorem Roll.Counts.perm_range (h : roll.Counts visited)
    (hcontiguous : checkedAdd roll.maxIndex.toNat 1 = some roll.total.toNat) :
    (visited.map UInt64.toNat).Perm (List.range roll.total.toNat) := by
  obtain ⟨hnext,-⟩ := checkedAdd_eq_some.mp hcontiguous
  have htotal : roll.total.toNat = visited.length % 2^64 := by
    rw [h.total]
    exact UInt64.toNat_ofNat'
  rw [← hnext]
  refine h.subperm.perm_of_length_le ?_
  rw [List.length_range,List.length_map,hnext,htotal]
  exact Nat.mod_le _ _

theorem Roll.Counts.contiguous (h : roll.Counts visited) {total : UInt64} (hpos : 1 ≤ total.toNat)
    (hperm : (visited.map UInt64.toNat).Perm (List.range total.toNat)) :
    roll.total = total ∧ checkedAdd roll.maxIndex.toNat 1 = some roll.total.toNat := by
  have hlength : visited.length = total.toNat := by
    simpa using hperm.length_eq
  have htotal : roll.total = total := by
    rw [h.total,hlength,UInt64.ofNat_toNat]
  have hmem : ∀ n, (∃ index ∈ visited, index.toNat = n) ↔ n < total.toNat := by
    intro n
    rw [← List.mem_range,← hperm.mem_iff,List.mem_map]
  have hlt := (hmem _).mp ⟨roll.maxIndex,?_,rfl⟩
  · obtain ⟨index,hindex,hlast⟩ := (hmem (total.toNat-1)).mpr (by omega)
    have hle := UInt64.le_iff_toNat_le.mp (h.most index hindex)
    rw [htotal]
    exact ⟨rfl,checkedAdd_eq_some.mpr ⟨by omega,total.toNat_lt⟩⟩
  · refine h.reached.resolve_right fun hnone => ?_
    rw [hnone.1,List.length_nil] at hlength
    omega

end Counting

/-- The indices of the groups, one group after the other, are the numbers below the total. -/
structure Partition (raw : BTreeMap String (List UInt64)) (total : UInt64) : Prop where
  named : ∀ name indices, raw[name]? = some indices → ¬ Blank name ∧ indices ≠ []
  positive : 1 ≤ total.toNat
  complete : ((rowsOf raw).flatten.map UInt64.toNat).Perm (List.range total.toNat)

theorem Partition.admissible {raw : BTreeMap String (List UInt64)} {total : UInt64}
    (h : Partition raw total) : Admissible raw.toList := by
  refine ⟨fun entry hentry => ?_,?_⟩
  · exact h.named entry.1 entry.2 (Std.ExtTreeMap.mem_toList_iff_getElem?_eq_some.mp hentry)
  · exact .of_map _ (h.complete.nodup_iff.mpr List.nodup_range)

def groupsOf (raw : BTreeMap String (List UInt64)) : BTreeMap String (List ValidatorIndex) :=
  raw.map fun _ indices => indices.map validatorIndex

theorem Roll.Enters.groups_eq {roll : Roll} {raw : BTreeMap String (List UInt64)}
    (h : roll.Enters raw.toList) : roll.groups = groupsOf raw := by
  rw [h.groups,← ofList_toList (groupsOf raw),groupsOf,Std.ExtTreeMap.toList_map]

theorem fromCanonical_cases (raw : BTreeMap String (List UInt64)) :
    (∃ total, Partition raw total ∧ fromCanonical raw = .ok ⟨groupsOf raw,total⟩) ∨
    (∀ total, ¬ Partition raw total) ∧ ∃ e, fromCanonical raw = .error e := by
  unfold fromCanonical
  by_cases hempty : raw.isEmpty = true
  · rw [if_pos hempty]
    refine .inr ⟨fun total hraw => ?_,_,rfl⟩
    have hlength := hraw.complete.length_eq
    have hpos := hraw.positive
    have hnil : raw.toList = [] := by
      rw [← List.isEmpty_iff,Std.ExtTreeMap.isEmpty_toList,hempty]
    simp [rowsOf,hnil] at hlength
    omega
  rw [if_neg hempty]
  rcases enterGroups_cases raw.toList with ⟨roll,hroll,henters⟩ | ⟨hnot,e,he⟩
  · rw [hroll]
    by_cases hcontiguous : checkedAdd roll.maxIndex.toNat 1 = some roll.total.toNat
    · refine .inl ⟨roll.total,⟨fun name indices hname => ?_,?_,?_⟩,?_⟩
      · exact henters.named (name,indices) (Std.ExtTreeMap.mem_toList_iff_getElem?_eq_some.mpr hname)
      · have hnext := (checkedAdd_eq_some.mp hcontiguous).1
        omega
      · exact henters.counts.perm_range hcontiguous
      · rw [← henters.groups_eq]
        exact if_neg (not_not.mpr hcontiguous)
    · refine .inr ⟨fun total hraw => ?_,_,if_pos hcontiguous⟩
      exact hcontiguous (henters.counts.contiguous hraw.positive hraw.complete).2
  · rw [he]
    exact .inr ⟨fun total hraw => hnot hraw.admissible,e,rfl⟩

/-- `HashSet::from_iter` keeps one of each. -/
def LocalProposers.new (owned : List ValidatorIndex) (totalValidators : UInt64) : LocalProposers :=
  ⟨owned.dedup,totalValidators.toNat⟩

structure LocalValidatorSet where
  owned : List ValidatorIndex
  total : UInt64

/-- `none` where the group is not in the file. -/
def resolveLocalValidators (assignments : ValidatorAssignments) (group : String) :
    Option LocalValidatorSet :=
  (assignments.group group).map fun owned => ⟨owned,assignments.totalValidators⟩

def nodeOf (assignments : ValidatorAssignments) (group : String) : Option LocalProposers :=
  (resolveLocalValidators assignments group).map fun validators =>
    LocalProposers.new validators.owned validators.total

def LocalProposers.signersForSlot (slot : Slot) (self : LocalProposers) : List ValidatorIndex :=
  (self.proposerForSlot slot).toList ++ self.attestersForSlot slot

theorem LocalProposers.proposerForSlot_eq_some {self : LocalProposers} {slot : Slot}
    {v : ValidatorIndex} : self.proposerForSlot slot = some v ↔
      isProposer v slot self.totalValidators = .ok true ∧ v ∈ self.owned := by
  rw [isProposer_ok]
  by_cases hzero : self.totalValidators = 0
  · simp [proposerForSlot,hzero]
  simp only [proposerForSlot,if_neg hzero]
  split
  · next howned =>
    rw [Option.some.injEq]
    constructor
    · rintro rfl
      exact ⟨⟨hzero,rfl⟩,howned⟩
    · exact fun h => ValidatorIndex.ext_get h.1.2
  · next hnot =>
    refine iff_of_false (fun h => by cases h) fun h => ?_
    have hv : v = ⟨slot.get%self.totalValidators,Nat.lt_of_le_of_lt (Nat.mod_le _ _) slot.isLt⟩ :=
      ValidatorIndex.ext_get h.1.2.symm
    exact hnot (hv ▸ h.2)

theorem LocalProposers.signersForSlot_perm {self : LocalProposers} (h : self.owned.Nodup)
    (slot : Slot) : (self.signersForSlot slot).Perm self.owned := by
  unfold signersForSlot attestersForSlot
  cases hproposer : self.proposerForSlot slot with
  | none => simp
  | some v =>
    obtain ⟨-,howned⟩ := proposerForSlot_eq_some.mp hproposer
    have hrest : (self.owned.filter fun validator => decide (some validator ≠ some v)) =
        self.owned.erase v := by
      rw [h.erase_eq_filter]
      simp [bne,beq_eq_decide]
    rw [hrest]
    exact (List.perm_cons_erase howned).symm

theorem filterMap_keys {κ ν β : Type} [Ord κ] [Std.TransOrd κ] [Std.LawfulEqOrd κ]
    (t : Std.ExtTreeMap κ ν compare) (f : ν → β) :
    t.keys.filterMap (fun k => t[k]?.map f) = (rowsOf t).map f := by
  rw [← Std.ExtTreeMap.map_fst_toList_eq_keys,List.filterMap_map,rowsOf,List.map_map,
    ← List.filterMap_eq_map]
  refine List.filterMap_congr fun entry hentry => ?_
  simp [Std.ExtTreeMap.mem_toList_iff_getElem?_eq_some.mp hentry]

section Nodes
variable {raw : BTreeMap String (List UInt64)} {total : UInt64}

theorem validatorIndex_injective : Function.Injective validatorIndex := by
  intro a b h
  exact UInt64.toNat_inj.mp (congrArg ValidatorIndex.get h)

theorem nodeOf_eq (assignments : ValidatorAssignments) (group : String) :
    nodeOf assignments group = assignments.groups[group]?.map fun owned =>
      LocalProposers.new owned assignments.totalValidators := by
  rw [nodeOf,resolveLocalValidators,Option.map_map]
  rfl

theorem nodeOf_eq_some {name : String} {node : LocalProposers} :
    nodeOf ⟨groupsOf raw,total⟩ name = some node ↔
      ∃ indices, raw[name]? = some indices ∧
        LocalProposers.new (indices.map validatorIndex) total = node := by
  rw [nodeOf_eq,groupsOf,Std.ExtTreeMap.getElem?_map,Option.map_map,Option.map_eq_some_iff]
  rfl

theorem Partition.apart (h : Partition raw total) {name name' : String} {row row' : List UInt64}
    (hname : raw[name]? = some row) (hname' : raw[name']? = some row') {index : UInt64}
    (hindex : index ∈ row) (hindex' : index ∈ row') : name = name' := by
  have hnodup : (raw.toList.flatMap Prod.snd).Nodup := h.admissible.nodup
  have hapart := (List.nodup_flatMap.mp hnodup).2
  have hsymm : Std.Symm (Function.onFun List.Disjoint (Prod.snd : String × List UInt64 → _)) :=
    ⟨fun _ _ hd => List.Disjoint.symm hd⟩
  by_contra hne
  have hentries : (name,row) ≠ (name',row') := fun heq => hne (congrArg Prod.fst heq)
  have hdisjoint := hapart.forall (Std.ExtTreeMap.mem_toList_iff_getElem?_eq_some.mpr hname)
    (Std.ExtTreeMap.mem_toList_iff_getElem?_eq_some.mpr hname') hentries
  exact hdisjoint hindex hindex'

theorem Partition.nodup_row (h : Partition raw total) {row : List UInt64} (hrow : row ∈ rowsOf raw) :
    (row.map validatorIndex).Nodup :=
  ((List.nodup_flatten.mp h.admissible.nodup).1 row hrow).map validatorIndex_injective

theorem Partition.signers_perm (h : Partition raw total) (slot : Slot) :
    ((((groupsOf raw).keys.filterMap (nodeOf ⟨groupsOf raw,total⟩)).flatMap
      (LocalProposers.signersForSlot slot)).map ValidatorIndex.get).Perm
        (List.range total.toNat) := by
  have hrows : rowsOf (groupsOf raw) = (rowsOf raw).map (List.map validatorIndex) := by
    simp [rowsOf,groupsOf,Std.ExtTreeMap.toList_map]
  have hnodes : (groupsOf raw).keys.filterMap (nodeOf ⟨groupsOf raw,total⟩) =
      (rowsOf (groupsOf raw)).map fun owned => LocalProposers.new owned total := by
    rw [← filterMap_keys]
    exact List.filterMap_congr fun group _ => nodeOf_eq _ group
  have hshare : ∀ row ∈ rowsOf raw, ((LocalProposers.new (row.map validatorIndex) total).signersForSlot
      slot).Perm (row.map validatorIndex) := by
    intro row hrow
    have hnodup := h.nodup_row hrow
    rw [LocalProposers.new,hnodup.dedup]
    exact LocalProposers.signersForSlot_perm hnodup slot
  rw [hnodes,hrows,List.map_map,List.flatMap_map]
  refine ((List.Perm.flatMap_left _ hshare).map ValidatorIndex.get).trans ?_
  have hget : ∀ row : List UInt64, (row.map validatorIndex).map ValidatorIndex.get =
      row.map UInt64.toNat := by
    intro row
    rw [List.map_map]
    rfl
  rw [List.map_flatMap,List.flatMap_def]
  simp only [hget]
  rw [← List.map_flatten]
  exact h.complete

theorem Partition.one_proposer (h : Partition raw total) (slot : Slot) :
    ∃! name, ∃ node, nodeOf ⟨groupsOf raw,total⟩ name = some node ∧
      (node.proposerForSlot slot).isSome = true := by
  have hpos := h.positive
  have hmem : slot.get % total.toNat ∈ (rowsOf raw).flatten.map UInt64.toNat :=
    h.complete.mem_iff.mpr (List.mem_range.mpr (Nat.mod_lt _ hpos))
  obtain ⟨index,hindex,hproposer⟩ := List.mem_map.mp hmem
  obtain ⟨row,hrow,hindex⟩ := List.mem_flatten.mp hindex
  obtain ⟨name,hname⟩ := mem_rowsOf.mp hrow
  refine ⟨name,⟨_,nodeOf_eq_some.mpr ⟨row,hname,rfl⟩,?_⟩,?_⟩
  · refine Option.isSome_iff_exists.mpr ⟨validatorIndex index,?_⟩
    refine LocalProposers.proposerForSlot_eq_some.mpr ⟨isProposer_ok.mpr ⟨?_,hproposer.symm⟩,?_⟩
    · exact Nat.ne_of_gt hpos
    · exact List.mem_dedup.mpr (List.mem_map_of_mem hindex)
  · rintro other ⟨node,hnode,hsome⟩
    obtain ⟨row',hname',rfl⟩ := nodeOf_eq_some.mp hnode
    obtain ⟨v,hv⟩ := Option.isSome_iff_exists.mp hsome
    obtain ⟨hright,howned⟩ := LocalProposers.proposerForSlot_eq_some.mp hv
    obtain ⟨index',hindex',rfl⟩ := List.mem_map.mp (List.mem_dedup.mp howned)
    have hsame : slot.get % total.toNat = index'.toNat := (isProposer_ok.mp hright).2
    obtain rfl : index = index' := UInt64.toNat_inj.mp (hproposer.trans hsame)
    exact h.apart hname' hname hindex' hindex

end Nodes

/-- Loading succeeds exactly on a partition of the numbers below some total. If then every group is
run by a node, each slot has one node with a proposer, which is the index that the registry of that
size accepts, and over all nodes every validator is asked for one signature. -/
theorem assignments_share_duties (raw : BTreeMap String (List UInt64)) :
    ((∃ assignments, fromCanonical raw = .ok assignments) ↔ ∃ total, Partition raw total) ∧
    ∀ assignments, fromCanonical raw = .ok assignments → ∀ slot,
      (∃! name, ∃ node, nodeOf assignments name = some node ∧
        (node.proposerForSlot slot).isSome = true) ∧
      (∀ name node v, nodeOf assignments name = some node → node.proposerForSlot slot = some v →
        ∀ v', isProposer v' slot assignments.totalValidators.toNat = .ok true ↔ v' = v) ∧
      (((assignments.groups.keys.filterMap (nodeOf assignments)).flatMap
        (LocalProposers.signersForSlot slot)).map ValidatorIndex.get).Perm
          (List.range assignments.totalValidators.toNat) := by
  rcases fromCanonical_cases raw with ⟨total,hraw,hok⟩ | ⟨hnone,e,herror⟩
  · refine ⟨⟨fun _ => ⟨total,hraw⟩,fun _ => ⟨_,hok⟩⟩,fun assignments hload slot => ?_⟩
    obtain rfl := Except.ok.inj (hok.symm.trans hload)
    refine ⟨hraw.one_proposer slot,fun name node v hnode hv v' => ?_,hraw.signers_perm slot⟩
    obtain ⟨row,-,rfl⟩ := nodeOf_eq_some.mp hnode
    have hright := (LocalProposers.proposerForSlot_eq_some.mp hv).1
    constructor
    · intro hright'
      exact ValidatorIndex.ext_get
        ((isProposer_ok.mp hright').2.symm.trans (isProposer_ok.mp hright).2)
    · rintro rfl
      exact hright
  · refine ⟨⟨fun hload => ?_,fun hraw => ?_⟩,fun assignments hload => ?_⟩
    · obtain ⟨assignments,hload⟩ := hload
      cases herror.symm.trans hload
    · obtain ⟨total,hraw⟩ := hraw
      exact absurd hraw (hnone total)
    · cases herror.symm.trans hload

def pairFile : BTreeMap String (List UInt64) :=
  ((∅ : BTreeMap String (List UInt64)).insert "lean-1" [1]).insert "lean-0" [2,0]

theorem assignments_share_duties_pair : ∃ assignments, fromCanonical pairFile = .ok assignments ∧
    ∃! name, ∃ node, nodeOf assignments name = some node ∧
      (node.proposerForSlot (Slot.ofNat 5)).isSome = true := by
  have hload : (fromCanonical pairFile).toOption.isSome = true := by decide +kernel
  cases hfile : fromCanonical pairFile with
  | error e => simp [hfile,Except.toOption] at hload
  | ok assignments => exact ⟨_,rfl,((assignments_share_duties pairFile).2 assignments hfile _).1⟩

end Devnet.Node
