import Devnet.Lib.Tables

/-!
A table that takes things in its custody, each under a key of its own, and hands them out again.
Nothing gets lost in it and nothing comes out twice: what was put in is what has come out
together with what is still there.
-/

set_option autoImplicit false

namespace Custody
open Tables

section
variable {κ ν : Type} [Ord κ] [Std.TransOrd κ] [Std.LawfulEqOrd κ]

/-- From one table to another, with `ins` put in and `outs` handed out. -/
def Moves (t : Std.ExtTreeMap κ ν compare) (ins outs : List ν)
    (t' : Std.ExtTreeMap κ ν compare) : Prop :=
  (rowsOf t ++ ins).Perm (outs ++ rowsOf t')

omit [Std.LawfulEqOrd κ] in
theorem Moves.refl (t : Std.ExtTreeMap κ ν compare) : Moves t [] [] t := by
  simp [Moves]

omit [Std.LawfulEqOrd κ] in
theorem Moves.trans {t m t' : Std.ExtTreeMap κ ν compare} {ins ins' outs outs' : List ν}
    (h : Moves t ins outs m) (h' : Moves m ins' outs' t') :
    Moves t (ins ++ ins') (outs ++ outs') t' := by
  have hfirst : (rowsOf t ++ (ins ++ ins')).Perm (outs ++ (rowsOf m ++ ins')) := by
    simpa only [List.append_assoc] using h.append_right ins'
  have hrest : (outs ++ (rowsOf m ++ ins')).Perm ((outs ++ outs') ++ rowsOf t') := by
    simpa only [List.append_assoc] using h'.append_left outs
  exact hfirst.trans hrest

omit [Std.LawfulEqOrd κ] in
theorem nodup_toList (t : Std.ExtTreeMap κ ν compare) : t.toList.Nodup := by
  refine List.Nodup.of_map Prod.fst ?_
  rw [Std.ExtTreeMap.map_fst_toList_eq_keys]
  exact Std.ExtTreeMap.nodup_keys

theorem moves_insert {t : Std.ExtTreeMap κ ν compare} {k : κ} (h : k ∉ t) (v : ν) :
    Moves t [v] [] (t.insert k v) := by
  have hperm : (t.insert k v).toList.Perm ((k,v) :: t.toList) := by
    refine (List.perm_ext_iff_of_nodup (nodup_toList _) ?_).mpr ?_
    · refine List.nodup_cons.mpr ⟨?_,nodup_toList t⟩
      intro hmem
      have hget := Std.ExtTreeMap.mem_toList_iff_getElem?_eq_some.mp hmem
      exact h (Std.ExtTreeMap.mem_iff_isSome_getElem?.mpr (by simp [hget]))
    · rintro ⟨k',v'⟩
      rw [Std.ExtTreeMap.mem_toList_iff_getElem?_eq_some,List.mem_cons,
        Std.ExtTreeMap.mem_toList_iff_getElem?_eq_some,Std.ExtTreeMap.getElem?_insert]
      by_cases hk : k = k'
      · subst hk
        have hnone : t[k]? = none := Std.ExtTreeMap.getElem?_eq_none h
        simp [hnone,eq_comm]
      · simp [hk,Ne.symm hk]
  have hrows := hperm.map Prod.snd
  exact List.perm_append_comm.trans hrows.symm

theorem moves_erase {t : Std.ExtTreeMap κ ν compare} {k : κ} {v : ν} (h : t[k]? = some v) :
    Moves t [] [v] (t.erase k) := by
  have hperm : t.toList.Perm ((k,v) :: (t.erase k).toList) := by
    refine (List.perm_ext_iff_of_nodup (nodup_toList t) ?_).mpr ?_
    · refine List.nodup_cons.mpr ⟨?_,nodup_toList _⟩
      intro hmem
      have hget := Std.ExtTreeMap.mem_toList_iff_getElem?_eq_some.mp hmem
      simp at hget
    · rintro ⟨k',v'⟩
      rw [Std.ExtTreeMap.mem_toList_iff_getElem?_eq_some,List.mem_cons,
        Std.ExtTreeMap.mem_toList_iff_getElem?_eq_some,Std.ExtTreeMap.getElem?_erase]
      by_cases hk : k = k'
      · subst hk
        simp [h,eq_comm]
      · simp [hk,Ne.symm hk]
  simpa [Moves,rowsOf] using hperm.map Prod.snd

end

end Custody
