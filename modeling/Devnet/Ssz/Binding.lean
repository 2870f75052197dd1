import Devnet.Lib.HashTrees
import Devnet.Lib.Wire
import Devnet.Ssz.Merkleize

/-!
The hash calls behind a root, as a tree that does not depend on the hash. Its root under any
hash is what the source's loops compute with that hash: pairing off level by level, the zero
subtrees that are doubled instead of built, and the siblings that extend a short list to its
limit. Values can then be read off from two trees that agree.
-/

set_option autoImplicit false

namespace Devnet.Ssz
open Devnet.Types Wire HashTree

def depthOf (n : Nat) : Nat := if n ≤ 1 then 0 else Nat.log2 (n-1)+1

theorem powerOfTwoCeil_eq {n : Nat} (h : depthOf n < 64) : powerOfTwoCeil n = 2^depthOf n := by
  unfold powerOfTwoCeil depthOf at *
  split
  · rfl
  · next hn =>
    rw [if_neg hn] at h
    simp only [if_neg (Nat.not_le.mpr h)]

theorem le_two_pow_depthOf (n : Nat) : n ≤ 2^depthOf n := by
  unfold depthOf
  split
  · omega
  · have hlt := @Nat.lt_log2_self (n-1)
    omega

theorem depthOf_mono {n m : Nat} (h : n ≤ m) : depthOf n ≤ depthOf m := by
  unfold depthOf
  split
  · omega
  · next hn =>
    rw [if_neg (by omega),Nat.add_le_add_iff_right,Nat.log2_eq_log_two,Nat.log2_eq_log_two]
    exact Nat.log_mono_right (by omega)

abbrev CallTree := HashTree Bytes32

def padded (trees : List CallTree) (i : Nat) : CallTree := trees.getD i (.leaf ByteVector.zero)

def fieldTree (trees : List CallTree) : CallTree := perfect (depthOf trees.length) (padded trees)

theorem perfect_extended {low high : Nat} {trees : List CallTree} (h : trees.length ≤ 2^low) :
    perfect (low+high) (padded trees) = perfect high fun i =>
      if i = 0 then perfect low (padded trees) else perfect low (padded []) := by
  rw [perfect_add]
  refine perfect_congr fun i _ => ?_
  by_cases hi : i = 0
  · simp [hi]
  · rw [if_neg hi]
    refine perfect_congr fun j _ => ?_
    have hpast : trees.length ≤ i*2^low+j :=
      h.trans ((Nat.le_mul_of_pos_left _ (Nat.pos_of_ne_zero hi)).trans (Nat.le_add_right _ _))
    simp [padded,List.getElem?_eq_none hpast]

theorem Agree.of_padded {depth : Nat} {trees trees' : List CallTree}
    (hlen : trees.length = trees'.length) (hfits : trees.length ≤ 2^depth)
    (h : Agree (perfect depth (padded trees)) (perfect depth (padded trees'))) :
    List.Forall₂ Agree trees trees' := by
  rw [List.forall₂_iff_get]
  refine ⟨hlen,fun i hi hi' => ?_⟩
  have hagree := Agree.of_perfect h i (hi.trans_le hfits)
  simpa [padded,hi,hi'] using hagree

theorem Agree.of_fieldTree {trees trees' : List CallTree} (hlen : trees.length = trees'.length)
    (h : Agree (fieldTree trees) (fieldTree trees')) : List.Forall₂ Agree trees trees' := by
  rw [fieldTree,fieldTree,← hlen] at h
  exact Agree.of_padded hlen (le_two_pow_depthOf _) h

theorem Agree.of_leaves {depth : Nat} {chunks chunks' : List Bytes32}
    (hlen : chunks.length = chunks'.length) (hfits : chunks.length ≤ 2^depth)
    (h : Agree (perfect depth (padded (chunks.map .leaf)))
      (perfect depth (padded (chunks'.map .leaf)))) : chunks = chunks' := by
  have hagree := Agree.of_padded (by simpa using hlen) (by simpa using hfits) h
  simpa [List.forall₂_map_left_iff,List.forall₂_map_right_iff] using hagree

theorem resize_eq_range {α : Type} (width : Nat) (xs : List α) (zero : α) :
    xs.take width ++ List.replicate (width - xs.length) zero =
      (List.range width).map fun i => xs.getD i zero := by
  induction width generalizing xs with
  | zero => simp
  | succ width ih =>
    rw [List.range_succ_eq_map,List.map_cons,List.map_map]
    cases xs with
    | nil => simp [List.replicate_succ,Function.comp_def]
    | cons x xs => simpa [Function.comp_def] using ih xs

section Roots
variable [HashPair]

def level (depth : Nat) (f : Nat → CallTree) : List Bytes32 :=
  (List.range (2^depth)).map fun i => (f i).root hashPair

theorem pairUp_range (count : Nat) (g : Nat → Bytes32) :
    pairUp ((List.range (2*count)).map g) =
      (List.range count).map fun i => hashPair (g (2*i)) (g (2*i+1)) := by
  induction count generalizing g with
  | zero => rfl
  | succ count ih =>
    have hrest : (List.range (2*(count+1))).map g =
        g 0 :: g 1 :: (List.range (2*count)).map fun i => g (i+2) := by
      rw [show 2*(count+1) = 2*count+1+1 by omega,List.range_succ_eq_map,List.range_succ_eq_map]
      simp [Function.comp_def]
    rw [hrest,pairUp,ih,List.range_succ_eq_map,List.map_cons,List.map_map]
    rfl

theorem pairUp_level (depth : Nat) (f : Nat → CallTree) :
    pairUp (level (depth+1) f) = level depth fun i => node (f (2*i)) (f (2*i+1)) := by
  rw [level,pow_succ',pairUp_range]
  rfl

theorem merkleizeLoop_level {fuel depth : Nat} (h : depth ≤ fuel) (f : Nat → CallTree) :
    merkleizeLoop fuel (level depth f) = (perfect depth f).root hashPair := by
  induction depth generalizing fuel f with
  | zero => cases fuel <;> rfl
  | succ depth ih =>
    cases fuel with
    | zero => omega
    | succ fuel =>
      have hlong : 1 < (level (depth+1) f).length := by
        simp [level]
      rw [merkleizeLoop,if_pos hlong,pairUp_level,ih (by omega),perfect]

theorem map_root_leaf (chunks : List Bytes32) :
    (chunks.map HashTree.leaf).map (root hashPair) = chunks := by
  rw [List.map_map]
  exact List.map_id _

theorem root_padded (trees : List CallTree) (i : Nat) : (padded trees i).root hashPair =
    (trees.map (root hashPair)).getD i ByteVector.zero := by
  simp only [padded,List.getD_eq_getElem?_getD,List.getElem?_map]
  cases trees[i]? <;> rfl

theorem resize_eq_level (depth : Nat) (trees : List CallTree) :
    (trees.map (root hashPair)).take (2^depth) ++
      List.replicate (2^depth - (trees.map (root hashPair)).length) ByteVector.zero =
        level depth (padded trees) := by
  simp only [resize_eq_range,level,root_padded]

theorem merkleizePartial_eq {depth : Nat} (h : depth ≤ 64) (trees : List CallTree) :
    merkleizePartial (trees.map (root hashPair)) (2^depth) =
      (perfect depth (padded trees)).root hashPair := by
  rw [merkleizePartial]
  split
  · next hwidth =>
    cases depth with
    | zero => cases trees <;> rfl
    | succ depth => exact absurd hwidth (Nat.not_le.mpr (Nat.one_lt_two_pow (by omega)))
  · rw [resize_eq_level,merkleizeLoop_level h]

theorem zeroTreeRootLoop_eq {fuel depth : Nat} (h : depth ≤ fuel) (zero : CallTree) :
    zeroTreeRootLoop fuel (2^depth) (zero.root hashPair) =
      (perfect depth fun _ => zero).root hashPair := by
  induction depth generalizing fuel zero with
  | zero => cases fuel <;> rfl
  | succ depth ih =>
    cases fuel with
    | zero => omega
    | succ fuel =>
      have hwide : 1 < 2^(depth+1) := Nat.one_lt_two_pow (by omega)
      have hhalf : 2^(depth+1)/2 = 2^depth := by rw [pow_succ]; omega
      rw [zeroTreeRootLoop,if_pos hwide,hhalf]
      exact ih (by omega) (node zero zero)

theorem zeroTreeRoot_eq {depth : Nat} (h : depth ≤ 64) :
    zeroTreeRoot (2^depth) = (perfect depth (padded [])).root hashPair := by
  rw [zeroTreeRoot]
  split
  · next hwidth =>
    cases depth with
    | zero => rfl
    | succ depth => exact absurd hwidth (Nat.not_le.mpr (Nat.one_lt_two_pow (by omega)))
  · exact zeroTreeRootLoop_eq h (.leaf ByteVector.zero)

theorem extendLoop_eq {fuel low high : Nat} (hfuel : high ≤ fuel) (h : low+high < 64)
    (sibling current : CallTree) :
    extendLoop fuel (2^low) (2^(low+high)) (sibling.root hashPair) (current.root hashPair) =
      (perfect high fun i => if i = 0 then current else sibling).root hashPair := by
  induction high generalizing fuel low sibling current with
  | zero => cases fuel <;> simp [extendLoop,perfect]
  | succ high ih =>
    cases fuel with
    | zero => omega
    | succ fuel =>
      have hshort : 2^low < 2^(low+(high+1)) := Nat.pow_lt_pow_right (by decide) (by omega)
      have hdouble : min (2^low*2) (2^64-1) = 2^(low+1) := by
        rw [← pow_succ,Nat.min_eq_left]
        have hsmall : 2^(low+1) ≤ 2^63 := Nat.pow_le_pow_right (by decide) (by omega)
        omega
      have hnext := @ih fuel (low+1) (by omega) (by omega) (node sibling sibling)
        (node current sibling)
      rw [show low+1+high = low+(high+1) by omega] at hnext
      rw [extendLoop,if_pos hshort,hdouble]
      refine hnext.trans (congrArg _ (perfect_congr fun i _ => ?_))
      by_cases hi : i = 0
      · simp [hi]
      · simp [hi]

/-- Merkleization to a limit is the root of the full tree. -/
theorem merkleizeWithLimit_eq {trees : List CallTree} {limit : Nat} (h : trees.length ≤ limit)
    (hlimit : depthOf limit < 64) :
    merkleizeWithLimit (trees.map (root hashPair)) limit =
      .ok ((perfect (depthOf limit) (padded trees)).root hashPair) := by
  have hdepth := depthOf_mono h
  rw [merkleizeWithLimit,List.length_map]
  by_cases hempty : trees.length = 0
  · obtain rfl := List.length_eq_zero_iff.mp hempty
    simp only [List.length_nil,if_true,powerOfTwoCeil_eq hlimit,zeroTreeRoot_eq hlimit.le]
  have hwidth := powerOfTwoCeil_eq (hdepth.trans_lt hlimit)
  simp only [if_neg hempty,if_neg (Nat.not_lt.mpr h),powerOfTwoCeil_eq hlimit,hwidth,
    merkleizePartial_eq (hdepth.trans hlimit.le)]
  split
  · next hle =>
    rw [hdepth.antisymm ((Nat.pow_le_pow_iff_right (by decide)).mp hle)]
  · obtain ⟨high,hhigh⟩ := Nat.exists_eq_add_of_le hdepth
    rw [hhigh] at hlimit ⊢
    rw [extendWithZeroSiblings,zeroTreeRoot_eq (by omega),extendLoop_eq (by omega) hlimit,
      perfect_extended (le_two_pow_depthOf _)]

theorem merkleize_eq {trees : List CallTree} (h : depthOf trees.length < 64) :
    merkleize (trees.map (root hashPair)) = (fieldTree trees).root hashPair := by
  rw [merkleize,fieldTree]
  split
  · next hempty =>
    obtain rfl : trees = [] := by simpa using hempty
    rfl
  · rw [List.length_map,powerOfTwoCeil_eq h,merkleizePartial_eq h.le]

end Roots

section Chunks

theorem bytes_chunkOf {bytes : List UInt8} (h : bytes.length ≤ 32) (k : Nat) :
    (chunkOf bytes).bytes.getD k 0 = bytes.getD k 0 := by
  simp only [chunkOf,List.take_of_length_le h,List.getD_eq_getElem?_getD,List.getElem?_append,
    List.getElem?_replicate]
  split
  · rfl
  · next hk => split <;> simp [List.getElem?_eq_none (Nat.not_lt.mp hk)]

theorem chunkOf_inj {bytes bytes' : List UInt8} (hlen : bytes.length = bytes'.length)
    (h : bytes.length ≤ 32) (heq : chunkOf bytes = chunkOf bytes') : bytes = bytes' := by
  apply List.ext_getElem hlen
  intro k hk hk'
  have hbyte := bytes_chunkOf h k
  rw [heq,bytes_chunkOf (hlen ▸ h) k] at hbyte
  simpa [hk,hk'] using hbyte.symm

theorem u64Chunk_inj {a b : Nat} (ha : a < 2^64) (hb : b < 2^64) (h : u64Chunk a = u64Chunk b) :
    a = b := by
  have hbytes : leBytes 8 a = leBytes 8 b := chunkOf_inj (by simp) (by simp) h
  rw [← ofLeBytes_leBytes (show a < 256^8 by omega),hbytes,ofLeBytes_leBytes (by omega)]

@[simp] theorem length_pack (bytes : List UInt8) : (pack bytes).length = (bytes.length+31)/32 := by
  simp [pack]

theorem pack_inj {bytes bytes' : List UInt8} (hlen : bytes.length = bytes'.length)
    (h : pack bytes = pack bytes') : bytes = bytes' := by
  apply List.ext_getElem hlen
  intro k hk hk'
  have hchunk : chunkOf ((bytes.drop (32*(k/32))).take 32) =
      chunkOf ((bytes'.drop (32*(k/32))).take 32) := by
    have hget := congrArg (fun chunks => chunks[k/32]?) h
    simp only [pack,List.getElem?_map] at hget
    rw [List.getElem?_range (by omega),List.getElem?_range (by omega)] at hget
    simpa using hget
  have hpart := chunkOf_inj (by simp [hlen]) (by simp) hchunk
  have hbyte := congrArg (fun part => part[k%32]?) hpart
  have hmod := Nat.mod_lt k (show 0 < 32 by decide)
  have hindex : 32*(k/32)+k%32 = k := Nat.div_add_mod k 32
  simpa [List.getElem?_take,List.getElem?_drop,hmod,hindex,hk,hk'] using hbyte

end Chunks

section Bits

@[simp] theorem length_foldl_modify (indices : List Nat) (f : Nat → UInt8 → UInt8)
    (data : List UInt8) :
    (indices.foldl (fun data i => data.modify (i/8) (f i)) data).length = data.length := by
  induction indices generalizing data with
  | nil => rfl
  | cons i indices ih => simp [ih]

theorem modify_eq_writeBit {data : List UInt8} {i : Nat} (h : i/8 < data.length) :
    data.modify (i/8) (· ||| ((1 : UInt8) <<< UInt8.ofNat (i%8))) = writeBit data i true := by
  apply List.ext_getElem?
  intro n
  by_cases hn : i/8 = n
  · subst hn
    simp [writeBit,setBit,h]
  · simp [writeBit,hn]

theorem readBit_foldl {indices : List Nat} {data : List UInt8}
    (h : ∀ i ∈ indices, i/8 < data.length) (k : Nat) :
    readBit (indices.foldl
      (fun data i => data.modify (i/8) (· ||| ((1 : UInt8) <<< UInt8.ofNat (i%8)))) data) k =
        (readBit data k || decide (k ∈ indices)) := by
  induction indices generalizing data with
  | nil => simp
  | cons i indices ih =>
    obtain ⟨hi,hrest⟩ := List.forall_mem_cons.mp h
    rw [List.foldl_cons,modify_eq_writeBit hi,ih (by simpa [writeBit] using hrest),
      readBit_writeBit true k hi]
    by_cases hk : k = i
    · simp [hk]
    · simp [hk]

theorem packed_bitlist {LIMIT : Nat} (bl : Bitlist LIMIT) : bl.iterSetIndices.foldl
    (fun data i => data.modify (i/8) (· ||| ((1 : UInt8) <<< UInt8.ofNat (i%8))))
    (List.replicate ((bl.len+7)/8) 0) = bl.bytes := by
  have hsize := bl.size
  have hlive : ∀ i ∈ bl.iterSetIndices, i < bl.len := by
    simpa [Bitlist.iterSetIndices,Bitlist.len] using fun i hi _ => hi
  apply bytes_ext
  · simp [hsize,Bitlist.len]
  · intro k
    rw [readBit_foldl (fun i hi => by have := hlive i hi; simp; omega),readBit_replicate]
    by_cases hk : bl.length ≤ k
    · simp [Bitlist.iterSetIndices,bl.padding k hk]
    · simp [Bitlist.iterSetIndices,Nat.lt_of_not_le hk]

end Bits

/-- The calls behind the root of a value. -/
class Unrolled (α : Type) where
  callTree : α → CallTree

export Unrolled (callTree)

/-- A root that is computed by the calls given, and from which the value can be read off. -/
structure Binds [HashPair] (α : Type) [HashTreeRoot α] [Unrolled α] (Within : α → Prop) :
    Prop where
  root_eq : ∀ x : α, Within x → (callTree x).root hashPair = hashTreeRoot x
  agree : ∀ x y : α, Within x → Within y → Agree (callTree x) (callTree y) → x = y

section Binding
variable [HashPair] {α : Type} [HashTreeRoot α] [Unrolled α] {Within : α → Prop}

theorem Binds.equal_or_clash (h : Binds α Within) {x y : α} (hx : Within x) (hy : Within y)
    (hroot : hashTreeRoot x = hashTreeRoot y) :
    x = y ∨ Clash hashPair (callTree x) (callTree y) := by
  rw [← h.root_eq x hx,← h.root_eq y hy] at hroot
  exact (agree_or_clash hroot).imp_left (h.agree x y hx hy)

def listTree (items : List α) (max : Nat) : CallTree :=
  node (perfect (depthOf max) (padded (items.map callTree))) (.leaf (u64Chunk items.length))

theorem root_listTree (h : Binds α Within) {items : List α} {max : Nat}
    (hmax : depthOf max < 64) (hlen : items.length ≤ max) (hitems : ∀ x ∈ items, Within x) :
    (listTree items max).root hashPair = listHashTreeRoot items max := by
  have hroots : items.map hashTreeRoot = (items.map callTree).map (root hashPair) := by
    rw [List.map_map]
    exact List.map_congr_left fun x hx => (h.root_eq x (hitems x hx)).symm
  rw [listHashTreeRoot,hroots,merkleizeWithLimit_eq (by simpa using hlen) hmax]
  rfl

theorem agree_listTree (h : Binds α Within) {items items' : List α} {max : Nat}
    (hmax : depthOf max < 64) (hlen : items.length ≤ max) (hlen' : items'.length ≤ max)
    (hitems : ∀ x ∈ items, Within x) (hitems' : ∀ x ∈ items', Within x)
    (hagree : Agree (listTree items max) (listTree items' max)) : items = items' := by
  obtain ⟨htrees,hlength⟩ := hagree
  have hsmall : max < 2^64 :=
    (le_two_pow_depthOf max).trans_lt (Nat.pow_lt_pow_right (by decide) hmax)
  have hsame := u64Chunk_inj (by omega) (by omega) hlength
  have hall := Agree.of_padded (by simpa using hsame)
    (by simpa using hlen.trans (le_two_pow_depthOf max)) htrees
  rw [List.forall₂_map_left_iff,List.forall₂_map_right_iff,List.forall₂_iff_get] at hall
  apply List.ext_getElem hsame
  intro i hi hi'
  exact h.agree _ _ (hitems _ (List.getElem_mem hi)) (hitems' _ (List.getElem_mem hi'))
    (hall.2 i hi hi')

def bitlistTree {LIMIT : Nat} (bl : Bitlist LIMIT) : CallTree :=
  node (perfect (depthOf (max ((LIMIT+255)/256) 1)) (padded ((pack bl.bytes).map .leaf)))
    (.leaf (u64Chunk bl.length))

theorem root_bitlistTree {LIMIT : Nat} (hlimit : depthOf (max ((LIMIT+255)/256) 1) < 64)
    (bl : Bitlist LIMIT) : (bitlistTree bl).root hashPair = bitlistHashTreeRoot bl := by
  have hfits : ((pack bl.bytes).map HashTree.leaf).length ≤ max ((LIMIT+255)/256) 1 := by
    have hsize := bl.size
    have hwithin := bl.within
    rw [List.length_map,length_pack]
    omega
  rw [bitlistHashTreeRoot,packed_bitlist,← map_root_leaf (pack _),merkleizeWithLimit_eq hfits hlimit]
  rfl

omit [HashPair] in
theorem agree_bitlistTree {LIMIT : Nat} (hlimit : LIMIT < 2^64) {bl bl' : Bitlist LIMIT}
    (h : Agree (bitlistTree bl) (bitlistTree bl')) : bl = bl' := by
  obtain ⟨htrees,hlength⟩ := h
  have hwithin := bl.within
  have hwithin' := bl'.within
  have hsame := u64Chunk_inj (by omega) (by omega) hlength
  have hsize := bl.size
  have hsize' := bl'.size
  have hbytes : bl.bytes.length = bl'.bytes.length := by rw [hsize,hsize',hsame]
  have hfits : (pack bl.bytes).length ≤ max ((LIMIT+255)/256) 1 := by
    rw [length_pack]
    omega
  have hpack := Agree.of_leaves (by rw [length_pack,length_pack,hbytes])
    (hfits.trans (le_two_pow_depthOf _)) htrees
  have heq := pack_inj hbytes hpack
  cases bl
  cases bl'
  cases hsame
  cases heq
  rfl

instance {N : Nat} : Unrolled (ByteVector N) := ⟨fun self => fieldTree ((pack self.bytes).map .leaf)⟩

theorem binds_byteVector {N : Nat} (h : depthOf ((N+31)/32) < 64) :
    Binds (ByteVector N) fun _ => True := by
  constructor
  · intro x _
    change _ = merkleize (pack x.bytes)
    rw [← map_root_leaf (pack _),merkleize_eq (by simpa [x.size] using h)]
    rfl
  · intro x y _ _ hagree
    have hlen : x.bytes.length = y.bytes.length := by rw [x.size,y.size]
    have hagree := Agree.of_fieldTree (by simp [hlen]) hagree
    rw [List.forall₂_map_left_iff,List.forall₂_map_right_iff] at hagree
    exact ByteVector.ext_bytes (pack_inj hlen (List.forall₂_eq_eq_eq ▸ hagree))

end Binding

end Devnet.Ssz
