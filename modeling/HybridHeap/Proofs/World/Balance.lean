import HybridHeap.Proofs.World.Census

/-!
Changes of a world that keep it in balance: another heap in the place of one that has
the same closures but for those that were let go of, another environment, and one
environment less. Every operation is one of these or several of them in a row.
-/

namespace HybridHeap

namespace World

variable {w : World} {held held' : List Holding} {write write' : Option Writing}

section Heaps

variable {i : HeapId} {h : Heap}

theorem heap?_setHeap (w : World) (i j : HeapId) (h : Heap) :
    (w.setHeap i h).heap? j =
      if i = j then if i < w.heaps.size then some h else none else w.heap? j :=
  Array.getElem?_setIfInBounds

theorem heap?_setHeap_self (hi : w.heap? i = some h) (h' : Heap) :
    (w.setHeap i h').heap? i = some h' := by
  obtain ⟨hlt, -⟩ := Array.getElem?_eq_some_iff.mp hi
  rw [heap?_setHeap, if_pos rfl, if_pos hlt]

theorem heap?_setHeap_of_ne {j : HeapId} (hj : i ≠ j) (w : World) (h' : Heap) :
    (w.setHeap i h').heap? j = w.heap? j := by
  rw [heap?_setHeap, if_neg hj]

theorem setHeap_setHeap (w : World) (i : HeapId) (h h' : Heap) :
    (w.setHeap i h).setHeap i h' = w.setHeap i h' := by
  simp [setHeap]

theorem setHeap_self (hi : w.heap? i = some h) : w.setHeap i h = w := by
  obtain ⟨hlt, hget⟩ := Array.getElem?_eq_some_iff.mp hi
  subst hget
  simp [setHeap, Array.setIfInBounds, hlt]

/-- The heaps there are do not change, whatever becomes of one of them. -/
theorem exists_heap?_setHeap (hi : w.heap? i = some h) (h' : Heap) (j : HeapId) :
    (∃ k, (w.setHeap i h').heap? j = some k) ↔ ∃ k, w.heap? j = some k := by
  by_cases hj : i = j
  · subst hj
    rw [heap?_setHeap_self hi]
    exact ⟨fun _ => ⟨h, hi⟩, fun _ => ⟨h', rfl⟩⟩
  · rw [heap?_setHeap_of_ne hj]

theorem count_closures_setHeap (hi : w.heap? i = some h) (h' : Heap) (e : EnvId) :
    (w.setHeap i h').closures.count e + h.closures.count e =
      w.closures.count e + h'.closures.count e := by
  obtain ⟨hlt, hget⟩ := Array.getElem?_eq_some_iff.mp hi
  obtain ⟨l₁, l₂, hl, -, hset⟩ :=
    @List.exists_of_set _ i h' w.heaps.toList (by simpa using hlt)
  rw [Array.getElem_toList, hget] at hl
  rw [closures, closures, setHeap, Array.toList_setIfInBounds, hset, hl]
  simp only [List.flatMap_append, List.flatMap_cons, List.count_append]
  omega

/-- Another heap in the place of the heap `i`, with the roots and the closures that
the holdings now leave to it. -/
theorem Balanced.setHeap (hb : w.Balanced held write) (hi : w.heap? i = some h) {h' : Heap}
    (hbal : h'.Balanced (rootsIn i (heldRoots held' ++ w.bound)) (writeIn i write'))
    (hrest : ∀ j, j ≠ i →
      (rootsIn j (heldRoots held)).Perm (rootsIn j (heldRoots held')) ∧
        writeIn j write = writeIn j write')
    (hshares : ∀ e, (heldShares held').count e + h'.closures.count e =
      (heldShares held).count e + h.closures.count e)
    (hcells : ∀ c, h'.Live c → c.heap = i ∧ c.number < w.nextCell) :
    (w.setHeap i h').Balanced held' write' where
  heap j k hj := by
    by_cases hij : i = j
    · subst hij
      rw [heap?_setHeap_self hi, Option.some.injEq] at hj
      subst hj
      exact hbal
    · rw [heap?_setHeap_of_ne hij] at hj
      obtain ⟨hp, hw⟩ := hrest j (Ne.symm hij)
      have hk := hb.heap j k hj
      rw [hw, rootsIn_append] at hk
      apply hk.perm
      rw [rootsIn_append]
      exact hp.append_right _
  home r hr := by
    rw [exists_heap?_setHeap hi]
    by_cases hri : r.cell.heap = i
    · exact ⟨h, hri ▸ hi⟩
    · obtain ⟨hp, hw⟩ := hrest r.cell.heap hri
      -- a root of another heap was owned before
      apply hb.home r
      rcases List.mem_append.mp hr with hr | hr
      · refine List.mem_append_left _ ?_
        rcases List.mem_append.mp hr with hr | hr
        · have hmem : r ∈ rootsIn r.cell.heap (heldRoots held') :=
            List.mem_filter.mpr ⟨hr, decide_eq_true rfl⟩
          exact List.mem_append_left _ (List.mem_filter.mp (hp.mem_iff.mpr hmem)).1
        · exact List.mem_append_right _ hr
      · obtain ⟨wr, hwr, rfl⟩ := List.mem_map.mp hr
        have hmem : writeIn wr.root.cell.heap write' = some wr :=
          Option.filter_eq_some_iff.mpr ⟨Option.mem_toList.mp hwr, decide_eq_true rfl⟩
        rw [← hw] at hmem
        exact List.mem_append_right _ (List.mem_map_of_mem
          (Option.mem_toList.mpr (Option.filter_eq_some_iff.mp hmem).1))
  cells j k hj c hc := by
    by_cases hij : i = j
    · subst hij
      rw [heap?_setHeap_self hi, Option.some.injEq] at hj
      subst hj
      exact hcells c hc
    · rw [heap?_setHeap_of_ne hij] at hj
      exact hb.cells j k hj c hc
  scopes := hb.scopes
  owners e := by
    have h₁ := hb.owners e
    have h₂ := count_closures_setHeap hi h' e
    have h₃ := hshares e
    show w.ownersOf e = (heldShares held' ++ (w.setHeap i h').closures ++ w.parents).count e
    simp only [List.count_append] at h₁ ⊢
    omega

end Heaps

section Environments

variable {e : EnvId} {env env' : Environment}

theorem bound_perm (he : w.envs[e]? = some env) :
    w.bound.Perm (env.roots ++ { w with envs := w.envs.erase e }.bound) :=
  (values_perm_of_getElem? he).flatMap_right _

theorem bound_insert_perm (w : World) (e : EnvId) (env : Environment) :
    { w with envs := w.envs.insert e env }.bound.Perm
      (env.roots ++ { w with envs := w.envs.erase e }.bound) :=
  (values_insert_perm w.envs e env).flatMap_right _

theorem parents_perm (he : w.envs[e]? = some env) :
    w.parents.Perm (env.parent.toList ++ { w with envs := w.envs.erase e }.parents) := by
  refine ((values_perm_of_getElem? he).filterMap _).trans (.of_eq ?_)
  rw [List.filterMap_cons]
  cases env.parent <;> rfl

theorem parents_insert_perm (w : World) (e : EnvId) (env : Environment) :
    { w with envs := w.envs.insert e env }.parents.Perm
      (env.parent.toList ++ { w with envs := w.envs.erase e }.parents) := by
  refine ((values_insert_perm w.envs e env).filterMap _).trans (.of_eq ?_)
  rw [List.filterMap_cons]
  cases env.parent <;> rfl

theorem ownersOf_insert (w : World) (e d : EnvId) (env : Environment) :
    { w with envs := w.envs.insert e env }.ownersOf d =
      if e = d then env.owners else w.ownersOf d := by
  simp only [ownersOf, Std.ExtTreeMap.getElem?_insert, Std.compare_eq_iff_eq]
  split <;> rfl

theorem ownersOf_erase (w : World) (e d : EnvId) :
    { w with envs := w.envs.erase e }.ownersOf d = if e = d then 0 else w.ownersOf d := by
  simp only [ownersOf, Std.ExtTreeMap.getElem?_erase, Std.compare_eq_iff_eq]
  split <;> rfl

/-- The heaps do not notice a change that leaves all roots owned. -/
theorem Balanced.heaps_of_perm (hb : w.Balanced held write)
    (envs : Std.ExtTreeMap EnvId Environment) (nextEnv : EnvId)
    (hp : (heldRoots held ++ w.bound).Perm
      (heldRoots held' ++ { w with envs, nextEnv }.bound))
    (hscopes : ∀ d (env : Environment), envs[d]? = some env →
      d < nextEnv ∧ (∀ p ∈ env.parent, p < d) ∧ 0 < env.owners)
    (howners : ∀ d, { w with envs, nextEnv }.ownersOf d =
      (heldShares held' ++ w.closures ++ { w with envs, nextEnv }.parents).count d) :
    { w with envs, nextEnv }.Balanced held' write where
  heap i h hi := (hb.heap i h hi).perm (rootsIn_perm i hp)
  home r hr := hb.home r ((hp.append_right _).mem_iff.mpr hr)
  cells := hb.cells
  scopes := hscopes
  owners := howners

/-- Another environment in the place of one with the same parent. -/
theorem Balanced.setEnv (hb : w.Balanced held write) (he : w.envs[e]? = some env)
    (hparent : env'.parent = env.parent) (hpos : 0 < env'.owners)
    (hroots : (env.roots ++ heldRoots held).Perm (env'.roots ++ heldRoots held'))
    (howners : env'.owners + (heldShares held).count e = env.owners + (heldShares held').count e)
    (hshares : ∀ d, d ≠ e → (heldShares held').count d = (heldShares held).count d) :
    { w with envs := w.envs.insert e env' }.Balanced held' write := by
  have hparents : ∀ d, w.parents.count d =
      { w with envs := w.envs.insert e env' }.parents.count d := by
    intro d
    rw [(parents_perm he).count_eq, (parents_insert_perm w e env').count_eq, hparent]
  refine hb.heaps_of_perm _ w.nextEnv ?_ ?_ ?_
  · -- the bindings of the other environments stay where they are
    have h₁ := (bound_perm he).append_left (heldRoots held)
    have h₂ := (bound_insert_perm w e env').append_left (heldRoots held')
    refine h₁.trans (List.Perm.trans ?_ h₂.symm)
    rw [← List.append_assoc, ← List.append_assoc]
    refine List.Perm.append_right _ ?_
    exact List.perm_append_comm.trans (hroots.trans List.perm_append_comm)
  · intro d env₀ hd
    rcases eq_or_of_getElem?_insert hd with ⟨rfl, rfl⟩ | hd
    · obtain ⟨hn, hp, -⟩ := hb.scopes e env he
      exact ⟨hn, hparent ▸ hp, hpos⟩
    · exact hb.scopes d env₀ hd
  · intro d
    have h₁ := hb.owners d
    have h₂ := hparents d
    show { w with envs := w.envs.insert e env' }.ownersOf d = (heldShares held' ++ w.closures ++
      { w with envs := w.envs.insert e env' }.parents).count d
    rw [ownersOf_insert]
    simp only [List.count_append] at h₁ ⊢
    split
    · rename_i hed
      subst hed
      rw [ownersOf_of_getElem? he] at h₁
      omega
    · rename_i hed
      have h₃ := hshares d (Ne.symm hed)
      omega

/-- An environment that is destroyed with its last share leaves its share of the
parent and the roots of its bindings to be let go of. -/
theorem Balanced.eraseEnv (hb : w.Balanced (.share e :: held) write)
    (he : w.envs[e]? = some env) (hlast : env.owners ≤ 1) :
    { w with envs := w.envs.erase e }.Balanced
      ((env.estate (w.dropOrder e)).map Chore.holding ++ held) write := by
  -- the estate is all that the environment owned, in whatever order
  have hroots : (heldRoots ((env.estate (w.dropOrder e)).map Chore.holding)).Perm env.roots := by
    rw [Environment.estate, List.map_append, heldRoots_append, List.map_map, List.map_map]
    show (heldRoots (env.parent.toList.map .share) ++
      heldRoots (((w.dropOrder e).arrange env.roots).map .root)).Perm _
    rw [heldRoots_map_share, heldRoots_map_root, List.nil_append]
    exact (w.dropOrder e).perm env.roots
  have hshares : heldShares ((env.estate (w.dropOrder e)).map Chore.holding) =
      env.parent.toList := by
    rw [Environment.estate, List.map_append, heldShares_append, List.map_map, List.map_map]
    show heldShares (env.parent.toList.map .share) ++
      heldShares (((w.dropOrder e).arrange env.roots).map .root) = _
    rw [heldShares_map_share, heldShares_map_root, List.append_nil]
  refine hb.heaps_of_perm _ w.nextEnv ?_ ?_ ?_
  · rw [heldRoots_append]
    refine List.Perm.trans ?_ ((hroots.symm.append_right _).append_right _)
    refine ((bound_perm he).append_left _).trans ?_
    rw [← List.append_assoc]
    exact List.perm_append_comm.append_right _
  · intro d env₀ hd
    rw [Std.ExtTreeMap.getElem?_erase] at hd
    split at hd
    · cases hd
    · exact hb.scopes d env₀ hd
  · intro d
    have h₁ := hb.owners d
    have h₂ := (parents_perm he).count_eq d
    show { w with envs := w.envs.erase e }.ownersOf d =
      (heldShares ((env.estate (w.dropOrder e)).map Chore.holding ++ held) ++ w.closures ++
        { w with envs := w.envs.erase e }.parents).count d
    rw [ownersOf_erase, heldShares_append, hshares]
    rw [heldShares_share] at h₁
    simp only [List.cons_append, List.count_append, List.count_cons] at h₁ h₂ ⊢
    split
    · rename_i hed
      subst hed
      rw [ownersOf_of_getElem? he] at h₁
      simp only [BEq.rfl, if_true] at h₁
      omega
    · rename_i hed
      have hbeq : (e == d) = false := beq_eq_false_iff_ne.mpr hed
      simp only [hbeq, Bool.false_eq_true, if_false] at h₁
      omega

/-- A new environment takes over a share of its parent. -/
theorem Balanced.insertEnv (hb : w.Balanced held write) (env : Environment)
    (hfresh : w.envs[w.nextEnv]? = none) (howners : env.owners = 1)
    (hparent : ∀ p ∈ env.parent, p < w.nextEnv)
    (hheld : held.Perm (env.parent.toList.map .share ++ (env.roots.map .root ++ held'))) :
    { w with envs := w.envs.insert w.nextEnv env, nextEnv := w.nextEnv + 1 }.Balanced
      (.share w.nextEnv :: held') write := by
  have herase := erase_eq_self hfresh
  have hp := hb.perm hheld
  refine hb.heaps_of_perm _ _ ?_ ?_ ?_
  · refine ((heldRoots_perm hheld).append_right _).trans ?_
    have hi := bound_insert_perm w w.nextEnv env
    rw [herase] at hi
    simp only [heldRoots_append, heldRoots_map_share, heldRoots_map_root, List.nil_append,
      heldRoots_share]
    refine List.Perm.trans ?_ (hi.append_left _).symm
    rw [← List.append_assoc]
    exact List.perm_append_comm.append_right _
  · intro d env₀ hd
    rcases eq_or_of_getElem?_insert hd with ⟨rfl, rfl⟩ | hd
    · exact ⟨Nat.lt_succ_self _, hparent, by omega⟩
    · obtain ⟨hn, hrest⟩ := hb.scopes d env₀ hd
      exact ⟨Nat.lt_succ_of_lt hn, hrest⟩
  · intro d
    have h₁ := hp.owners d
    have h₂ := (parents_insert_perm w w.nextEnv env).count_eq d
    rw [herase] at h₂
    show { w with envs := w.envs.insert w.nextEnv env }.ownersOf d =
      (heldShares (.share w.nextEnv :: held') ++ w.closures ++
        { w with envs := w.envs.insert w.nextEnv env }.parents).count d
    rw [ownersOf_insert]
    simp only [heldShares_append, heldShares_map_share, heldShares_map_root, List.nil_append,
      heldShares_share, List.cons_append, List.count_append, List.count_cons] at h₁ h₂ ⊢
    change _ = _ + w.parents.count d at h₂
    split
    · rename_i hed
      subst hed
      have hzero : w.ownersOf w.nextEnv = 0 := by
        simp [ownersOf, hfresh]
      simp only [BEq.rfl, if_true]
      omega
    · rename_i hed
      have hbeq : (w.nextEnv == d) = false := beq_eq_false_iff_ne.mpr hed
      simp only [hbeq, Bool.false_eq_true, if_false]
      omega

end Environments

end World

end HybridHeap
