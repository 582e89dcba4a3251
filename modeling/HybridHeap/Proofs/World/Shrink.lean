import HybridHeap.Proofs.World.Collections
import HybridHeap.Proofs.World.Graph

/-!
Destruction makes the graph of a world smaller and nothing else: what is left has the
values, the bindings and the parents that it had. So no cycle comes about, and as long as
there is none, the collections that drops trigger sweep nothing.
-/

namespace HybridHeap

open Relation (TransGen)

namespace World

/-- From `w` to `w'` cells and environments may have gone, and the others are as they were
but for counts and owners. Without cycles nothing was swept. -/
structure Shrinks (w w' : World) : Prop where
  cells : ∀ (c : CellId) h' cell', w'.heap? c.heap = some h' → h'.find? c = some cell' →
    ∃ h cell, w.heap? c.heap = some h ∧ h.find? c = some cell ∧ cell.value = cell'.value
  contents : ∀ i h', w'.heap? i = some h' →
    ∃ h, w.heap? i = some h ∧ h'.contents.Sublist h.contents
  scopes : ∀ (e : EnvId) (env' : Environment), w'.envs[e]? = some env' →
    ∃ env, w.envs[e]? = some env ∧ env.parent = env'.parent ∧ env.bindings = env'.bindings
  unswept : (∀ n, ¬w.OnCycle n) → ∀ i h, w.heap? i = some h →
    ∃ h', w'.heap? i = some h' ∧ h'.counters.swept = h.counters.swept

namespace Shrinks

variable {w w' w'' : World}

theorem refl (w : World) : w.Shrinks w where
  cells _ h cell hi hf := ⟨h, cell, hi, hf, rfl⟩
  contents _ h hi := ⟨h, hi, .refl _⟩
  scopes _ env he := ⟨env, he, rfl, rfl⟩
  unswept _ _ h hi := ⟨h, hi, rfl⟩

theorem keeps (hs : w.Shrinks w') (n : Node) : w.Keeps w' n := by
  cases n with
  | cell c => exact hs.cells c
  | scope e => exact hs.scopes e

theorem edge (hs : w.Shrinks w') {m n : Node} (he : w'.Edge m n) : w.Edge m n :=
  (hs.keeps m).edge he

/-- With a node everything stays alive that could be reached from it. -/
theorem alive_of_leads {held : List Holding} {write : Option Writing} (hs : w.Shrinks w')
    (hb : w'.Balanced held write) {m n : Node} (hm : w'.Alive m) (hp : w.Leads m n) :
    w'.Alive n :=
  hb.alive_of_leads hs.keeps hm hp

theorem acyclic (hs : w.Shrinks w') (ha : ∀ n, ¬w.OnCycle n) : ∀ n, ¬w'.OnCycle n :=
  fun n hn => ha n (TransGen.mono (fun _ _ => hs.edge) _ _ hn)

theorem live (hs : w.Shrinks w') {c : CellId} (hl : w'.Live c) : w.Live c :=
  (hs.keeps (.cell c)).alive hl

theorem trans (hs : w.Shrinks w') (hs' : w'.Shrinks w'') : w.Shrinks w'' where
  cells c := (hs.keeps (.cell c)).trans (hs'.keeps (.cell c))
  contents i h'' hi'' := by
    obtain ⟨h', hi', hsub'⟩ := hs'.contents i h'' hi''
    obtain ⟨h, hi, hsub⟩ := hs.contents i h' hi'
    exact ⟨h, hi, hsub'.trans hsub⟩
  scopes e := (hs.keeps (.scope e)).trans (hs'.keeps (.scope e))
  unswept ha i h hi := by
    obtain ⟨h', hi', heq⟩ := hs.unswept ha i h hi
    obtain ⟨h'', hi'', heq'⟩ := hs'.unswept (hs.acyclic ha) i h' hi'
    exact ⟨h'', hi'', heq'.trans heq⟩

end Shrinks

/-- Another heap in the place of one that has the cell in question with the same value. -/
theorem keeps_setHeap {w : World} {i : HeapId} {h h' : Heap} {n : Node} (hi : w.heap? i = some h)
    (hv : ∀ c, n = .cell c → ∀ cell', h'.find? c = some cell' →
      ∃ cell, h.find? c = some cell ∧ cell.value = cell'.value) :
    w.Keeps (w.setHeap i h') n := by
  cases n with
  | scope e => exact fun env he => ⟨env, he, rfl, rfl⟩
  | cell c =>
      intro k cell' hk hf'
      by_cases hci : i = c.heap
      · subst hci
        rw [heap?_setHeap_self hi, Option.some.injEq] at hk
        subst hk
        obtain ⟨cell, hf, hvalue⟩ := hv c rfl cell' hf'
        exact ⟨h, cell, hi, hf, hvalue⟩
      · rw [heap?_setHeap_of_ne hci] at hk
        exact ⟨k, cell', hk, hf', rfl⟩

/-- The work of a heap that starts from its cells and only frees some changes no value. -/
theorem keeps_commit {w : World} {i : HeapId} {h : Heap} (hi : w.heap? i = some h)
    {r₀ r : Reclamation} {counted counted' : List CellId} (ht : r₀.Thins r)
    (ho : r₀.heap.objects = h.objects) (hc : h.Counted counted) (hc' : r.heap.Counted counted')
    (n : Node) : w.Keeps (w.commit i r).1 n := by
  have hkeeps : w.Keeps (w.setHeap i r.heap) n := by
    refine keeps_setHeap hi fun c _ cell' hf' => ?_
    obtain ⟨cell, hf, hv, -⟩ := ht.find?_of_find? (hc.congr ho) hc' hf'
    rw [Heap.find?, ho] at hf
    exact ⟨cell, hf, hv⟩
  cases n with
  | scope e => exact hkeeps
  | cell c => exact hkeeps

namespace Balanced

variable {w : World} {held : List Holding} {write : Option Writing} {i : HeapId} {h : Heap}

/-- The work of a heap that starts from its cells and only frees some. -/
theorem shrinks_commit (hb : w.Balanced held write) (hi : w.heap? i = some h)
    {r₀ r : Reclamation} {counted counted' : List CellId} (ht : r₀.Thins r)
    (ho : r₀.heap.objects = h.objects) (hc : h.Counted counted) (hc' : r.heap.Counted counted')
    (hswept : h.Acyclic → r.heap.counters.swept = h.counters.swept) :
    w.Shrinks (w.commit i r).1 where
  cells c := keeps_commit hi ht ho hc hc' (.cell c)
  contents j k hj := by
    by_cases hij : i = j
    · subst hij
      have hself : (w.commit i r).1.heap? i = some r.heap := heap?_setHeap_self hi _
      rw [hself, Option.some.injEq] at hj
      subst hj
      refine ⟨h, hi, ?_⟩
      have hsub := ht.contents
      rwa [Heap.contents, Heap.contents, Heap.cells, Heap.cells, ho] at hsub
    · exact ⟨k, (heap?_setHeap_of_ne hij w r.heap).symm.trans hj, .refl _⟩
  scopes e := keeps_commit hi ht ho hc hc' (.scope e)
  unswept ha j k hj := by
    by_cases hij : i = j
    · subst hij
      rw [hi, Option.some.injEq] at hj
      subst hj
      exact ⟨r.heap, heap?_setHeap_self hi _, hswept (hb.acyclic_heap ha hi)⟩
    · exact ⟨k, (heap?_setHeap_of_ne hij w r.heap).trans hj, rfl⟩

theorem shrinks_leave (w : World) (e : EnvId) : w.Shrinks (w.leave e).1 := by
  have henvs : ∀ envs : Std.ExtTreeMap EnvId Environment,
      (∀ (d : EnvId) (env' : Environment), envs[d]? = some env' →
        ∃ env, w.envs[d]? = some env ∧ env.parent = env'.parent ∧ env.bindings = env'.bindings) →
      w.Shrinks { w with envs } := fun envs hscopes =>
    { cells := fun _ h cell hi hf => ⟨h, cell, hi, hf, rfl⟩
      contents := fun _ h hi => ⟨h, hi, .refl _⟩
      scopes := hscopes
      unswept := fun _ _ h hi => ⟨h, hi, rfl⟩ }
  unfold World.leave
  split
  · exact .refl w
  · rename_i env he
    split
    · refine henvs _ fun d env' hd => ?_
      rw [Std.ExtTreeMap.getElem?_erase] at hd
      split at hd
      · cases hd
      · exact ⟨env', hd, rfl, rfl⟩
    · rw [World.modifyEnv, modify_eq_insert he]
      refine henvs _ fun d env' hd => ?_
      rcases eq_or_of_getElem?_insert hd with ⟨rfl, rfl⟩ | hd
      · exact ⟨env, he, rfl, rfl⟩
      · exact ⟨env', hd, rfl, rfl⟩

theorem shrinks_doChore {c : Chore} (hb : w.Balanced (c.holding :: held) write) :
    w.Shrinks (w.doChore c).1 := by
  cases c with
  | dropRoot r =>
      obtain ⟨h, hi, -⟩ := hb.live List.mem_cons_self
      have hheap := hb.heap_of_root hi
      obtain ⟨hbal, ht⟩ := hheap.dropRoot
      simp only [World.doChore, reclaim, hi]
      exact hb.shrinks_commit hi ht (Heap.objects_unroot h r) hheap.counted hbal.counted
        hheap.dropRoot_of_acyclic
  | dropAnchor r =>
      obtain ⟨h, hi, -⟩ := hb.live List.mem_cons_self
      have hheap := hb.heap_of_root hi
      obtain ⟨hbal, -, ht⟩ := hheap.dropAnchor
      simp only [World.doChore, reclaim, hi]
      exact hb.shrinks_commit hi ht (Heap.objects_unroot h r) hheap.counted hbal.counted
        fun _ => h.swept_dropAnchor r
  | leave e => exact shrinks_leave w e

theorem shrinks_settle {chores : List Chore}
    (hb : w.Balanced (chores.map Chore.holding ++ held) write) :
    w.Shrinks (w.settle chores) := by
  fun_induction World.settle w chores with
  | case1 w => exact .refl w
  | case2 w c rest ih =>
      refine hb.shrinks_doChore.trans (ih ?_)
      rw [List.map_append, List.append_assoc]
      exact hb.doChore

theorem shrinks_collectNow (hb : w.Balanced held none) (i : HeapId) :
    w.Shrinks (w.collectNow i) := by
  simp only [World.collectNow, World.work]
  cases hi : w.heap? i with
  | none => exact .refl w
  | some h =>
      have hheap := hb.heap i h hi
      rw [writeIn_none] at hheap
      obtain ⟨hbal, ht⟩ := hheap.collectNow
      obtain ⟨-, hcollect, hready⟩ := hheap.collectNow_eq
      refine Shrinks.trans ?_ (hb.collectNow hi).shrinks_settle
      refine hb.shrinks_commit hi ht rfl hheap.counted hbal.counted fun ha => ?_
      rw [hcollect]
      exact (hready.spares_collect ha).swept

end Balanced

end World

namespace Moment

/-- A collection that finds no cycle of slots sweeps nothing, however it was started. -/
theorem Collection.spares {m : Moment} {before after : Reclamation} (hm : m.Reachable)
    (hc : Collection m before after) (ha : before.heap.Acyclic) : before.Spares after := by
  have hb := hm.balanced
  cases hc with
  | @requested w held i h hi =>
      obtain ⟨hdrain, hcollect, hready⟩ := (World.Balanced.heap hb i h hi).collectNow_eq
      rw [hdrain] at ha ⊢
      rw [hcollect]
      exact hready.spares_collect ha
  | @placed w held i h v c before hi ho hc hbefore ht hover =>
      subst hbefore
      have hlive : ¬h.Live c := hc ▸ World.Balanced.not_live_next hb hi
      obtain ⟨-, hplaced, -, -⟩ := (World.Balanced.heap_of_value hb hi ho).placeOnly hlive
      have hd : (h.placeOnly c v).2.start.heap.deferred = [] := hplaced.deferred rfl
      rw [Heap.place_eq, if_pos ht]
      rw [Reclamation.drain_of_deferred_nil hd] at ha ⊢
      have hready : (h.placeOnly c v).2.start.Collectable _ := hplaced.collectable hd
      exact hready.spares_collectIfOver ha
  | @dropped w held write r h before hi hbefore ht hover =>
      subst hbefore
      obtain ⟨hdropped, hd, -⟩ := (World.Balanced.heap_of_root hb hi).dropAnchor
      have hdrop : h.dropRoot r = (h.dropAnchor r).collectIfOver := if_pos ht
      rw [hdrop]
      exact (hdropped.collectable hd).spares_collectIfOver ha

end Moment

end HybridHeap
