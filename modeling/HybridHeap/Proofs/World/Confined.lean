import HybridHeap.Proofs.Heap.Unswept
import HybridHeap.Proofs.World.Errands
import HybridHeap.Proofs.World.History
import HybridHeap.Proofs.World.Ledger
import HybridHeap.Proofs.World.Shrink
import HybridHeap.Proofs.World.Traceless

/-!
Work that is confined to a set of cells and environments: outside of the set nothing is new
or changed, and as long as no collection sweeps anything, what goes is in the set if the set
is closed under orphaning. Destruction is confined to every set, and work that only adds to
a world to those that have whatever is new.
-/

namespace HybridHeap

open Unmanaged (Store)

namespace World

/-- The set has every cell and environment that is not held and to which nothing leads but
nodes of the set. -/
def OrphanClosed (w : World) (held : List Holding) (S : Set Node) : Prop :=
  ∀ n, w.Alive n → n ∉ held.map Holding.node → (∀ m, w.Edge m n → m ∈ S) → n ∈ S

/-- Between the two worlds no collection has swept anything. -/
def Unswept (w w' : World) : Prop :=
  ∀ i, (w'.countersOf i).swept = (w.countersOf i).swept

/-- From `w` to `w'`, while `held` was held throughout, changes were confined to the nodes of
`S`. If nothing was swept and `S` is closed under orphaning, only nodes of `S` have gone. -/
structure Confined (S : Set Node) (held : List Holding) (w w' : World) : Prop where
  keeps : ∀ n, n ∉ S → w.Keeps w' n
  swept : ∀ i, (w.countersOf i).swept ≤ (w'.countersOf i).swept
  gone : w.Unswept w' → w.OrphanClosed held S → ∀ n, w.Alive n → ¬w'.Alive n → n ∈ S

variable {S : Set Node} {w w' w'' : World} {held rest : List Holding} {m n : Node}

/-- What is dead is closed under orphaning: whatever is alive is held, or something that is
alive leads to it. -/
theorem Balanced.orphanClosed_dead (hb : w'.Balanced held none)
    (hedge : ∀ m n, w'.Edge m n → w.Edge m n) : w.OrphanClosed held {n | ¬w'.Alive n} := by
  intro n _ hheld hfrom hn
  rcases hb.held_or_edge hn with hm | ⟨m, hm, he⟩
  · exact hheld hm
  · exact hfrom m (hedge m n he) hm

/-- A closed set stays closed under work that is confined to it. -/
theorem OrphanClosed.confined (hS : w.OrphanClosed held S) (hc : Confined S held w w')
    (hu : w.Unswept w') : w'.OrphanClosed held S := by
  intro n hn hheld hfrom
  by_contra hnS
  refine hnS (hS n ((hc.keeps n hnS).alive hn) hheld fun m hedge => ?_)
  by_contra hmS
  have hm : w'.Alive m := by
    by_contra hdead
    exact hmS (hc.gone hu hS m hedge.alive hdead)
  exact hmS (hfrom m ((hc.keeps m hmS).edge_of_alive hm hedge))

namespace Confined

theorem refl (S : Set Node) (held : List Holding) (w : World) : Confined S held w w where
  keeps n _ := Keeps.refl w n
  swept _ := Nat.le_refl _
  gone _ _ _ hn hdead := absurd hn hdead

theorem trans (hc : Confined S held w w') (hc' : Confined S held w' w'') :
    Confined S held w w'' where
  keeps n hn := (hc.keeps n hn).trans (hc'.keeps n hn)
  swept i := Nat.le_trans (hc.swept i) (hc'.swept i)
  gone hu hS n hn hdead := by
    have hu₁ : w.Unswept w' := by
      intro i
      have h₁ := hc.swept i
      have h₂ := hc'.swept i
      have h₃ := hu i
      omega
    have hu₂ : w'.Unswept w'' := fun i => (hu i).trans (hu₁ i).symm
    by_cases hn' : w'.Alive n
    · exact hc'.gone hu₂ (hS.confined hc hu₁) n hn' hdead
    · exact hc.gone hu₁ hS n hn hn'

end Confined

section Steps

variable {i : HeapId} {h : Heap}

/-- No step takes back what was swept. -/
theorem swept_le {m m' : Moment} (hs : Moment.Step m m') (hb : m.Balanced) (i : HeapId) :
    (m.world.countersOf i).swept ≤ (m'.world.countersOf i).swept := by
  obtain ⟨placed, counted, swept, ht⟩ := hs.turnover hb i
  have hswept := ht.swept
  omega

/-- Where the work of a heap is entered, what has gone was on that heap. -/
theorem gone_commit (hi : w.heap? i = some h) {r : Reclamation}
    (hgone : ∀ d, h.Live d → ¬r.heap.Live d → .cell d ∈ S) (hn : w.Alive n)
    (hdead : ¬(w.commit i r).1.Alive n) : n ∈ S := by
  cases n with
  | cell d =>
      obtain ⟨k, hk, hl⟩ := hn
      by_cases hd : i = d.heap
      · subst hd
        rw [hi, Option.some.injEq] at hk
        subst hk
        exact hgone d hl fun hlive => hdead ⟨r.heap, heap?_setHeap_self hi r.heap, hlive⟩
      · exact absurd ⟨k, (heap?_setHeap_of_ne hd w r.heap).trans hk, hl⟩ hdead
  | scope e => exact absurd hn hdead

/-- As one heap sees it: what is owned and bound is held there. -/
theorem OrphanClosed.heap (hS : w.OrphanClosed held S) {held' : List Holding}
    (hb : w.Balanced held' none) (hsub : held ⊆ rest) (hi : w.heap? i = some h) :
    h.OrphanClosed ((rootsIn i (heldRoots rest ++ w.bound)).map Root.cell)
      {d | .cell d ∈ S} := by
  intro d hl hroots hfrom
  obtain ⟨rfl, -⟩ := hb.cells i h hi d hl
  have hnot : ∀ r ∈ heldRoots rest ++ w.bound, r.cell ≠ d := by
    rintro r hr rfl
    exact hroots (List.mem_map_of_mem (List.mem_filter.mpr ⟨hr, decide_eq_true rfl⟩))
  refine hS (.cell d) ⟨h, hi, hl⟩ (fun hm => ?_) fun m hedge => ?_
  · obtain ⟨x, hx, he⟩ := List.mem_map.mp hm
    cases x with
    | root r =>
        cases he
        exact hnot r (List.mem_append_left _ (mem_heldRoots.mpr (hsub hx))) rfl
    | share e => cases he
  · cases hedge with
    | @slot c d k cell hk hf hd =>
        have hheap : d.heap = c.heap :=
          (hb.cells _ k hk d ((hb.heap _ k hk).counted.live_of_target hf hd)).1
        rw [← hheap, hi, Option.some.injEq] at hk
        subst hk
        exact hfrom (c, cell) ((hb.heap _ h hi).counted.find?_eq_some_iff.mp hf) hd
    | bound he hr =>
        exact absurd rfl (hnot _ (List.mem_append_right _ (mem_bound.mpr ⟨_, _, he, hr⟩)))

/-- An environment whose last share is given up is not held and nothing leads to it. -/
theorem gone_leave {e : EnvId} (hb : w.Balanced (.share e :: rest) none) (hsub : held ⊆ rest)
    (hS : w.OrphanClosed held S) (hn : w.Alive n) (hdead : ¬(w.leave e).1.Alive n) : n ∈ S := by
  cases n with
  | cell d =>
      obtain ⟨k, hk, hl⟩ := hn
      exact absurd ⟨k, (w.heap?_leave e d.heap).trans hk, hl⟩ hdead
  | scope d =>
      obtain ⟨env, he⟩ := hn
      obtain ⟨envs, heq, henvs⟩ := w.leave_spec e
      have hgone : envs[d]? = none := by
        rw [heq] at hdead
        exact Option.eq_none_iff_forall_ne_some.mpr fun env' henv' => hdead ⟨env', henv'⟩
      rw [henvs] at hgone
      split at hgone
      · rename_i hed
        subst hed
        have hlast : env.owners ≤ 1 := by
          by_contra hmore
          rw [he, Option.bind_some, shareless, if_neg hmore] at hgone
          cases hgone
        -- the share that is given up is the only one
        have hnone : e ∉ heldShares rest ++ w.closures ++ w.parents := by
          have howners := hb.owners e
          rw [ownersOf_of_getElem? he, heldShares_share, List.cons_append, List.cons_append,
            List.count_cons_self] at howners
          exact List.count_eq_zero.mp (by omega)
        simp only [List.mem_append, not_or] at hnone
        refine hS (.scope e) ⟨env, he⟩ (fun hm => ?_) fun m hedge => ?_
        · obtain ⟨x, hx, hxe⟩ := List.mem_map.mp hm
          cases x with
          | root r => cases hxe
          | share d =>
              cases hxe
              exact absurd (mem_heldShares.mpr (hsub hx)) hnone.1.1
        · cases hedge with
          | captured hi hf hc => exact absurd (hb.mem_closures hi hf hc) hnone.1.2
          | parent hd hp => exact absurd (mem_parents.mpr ⟨_, _, hd, hp⟩) hnone.2
      · rw [he] at hgone
        cases hgone

/-- Destruction is confined to whatever set. -/
theorem confined_doChore {c : Chore} (hb : w.Balanced (c.holding :: rest) none)
    (hsub : held ⊆ rest) : Confined S held w (w.doChore c).1 where
  keeps n _ := hb.shrinks_doChore.keeps n
  swept := swept_le (.chore c) hb
  gone hu hS n hn hdead := by
    cases c with
    | dropRoot r =>
        obtain ⟨h, hi, -⟩ := hb.live List.mem_cons_self
        have hheap := hb.heap_of_root hi
        rw [writeIn_none] at hheap
        simp only [doChore, reclaim, hi] at hu hdead
        have hself : (w.commit r.cell.heap (h.dropRoot r)).1.heap? r.cell.heap =
            some (h.dropRoot r).heap := heap?_setHeap_self hi _
        have hswept : (h.dropRoot r).heap.counters.swept = h.counters.swept := by
          have := hu r.cell.heap
          rwa [countersOf_of_heap? hself, countersOf_of_heap? hi] at this
        exact gone_commit hi (fun d =>
          hheap.mem_of_gone_dropRoot hswept (hS.heap hb hsub hi)) hn hdead
    | dropAnchor r =>
        obtain ⟨h, hi, -⟩ := hb.live List.mem_cons_self
        have hheap := hb.heap_of_root hi
        rw [writeIn_none] at hheap
        simp only [doChore, reclaim, hi] at hdead
        exact gone_commit hi (fun d =>
          hheap.mem_of_gone_dropAnchor (hS.heap hb hsub hi)) hn hdead
    | leave e => exact gone_leave hb hsub hS hn hdead

theorem confined_settle {chores : List Chore}
    (hb : w.Balanced (chores.map Chore.holding ++ rest) none) (hsub : held ⊆ rest) :
    Confined S held w (w.settle chores) := by
  fun_induction World.settle w chores with
  | case1 w => exact .refl S held w
  | case2 w c chores ih =>
      have hsub' : held ⊆ chores.map Chore.holding ++ rest :=
        List.Subset.trans hsub (List.subset_append_right _ _)
      refine (confined_doChore hb hsub').trans (ih ?_)
      rw [List.map_append, List.append_assoc]
      exact hb.doChore

/-- Placing a value is confined to the sets that have the new cell. -/
theorem confined_place {v : Value Handle} {c : CellId} (hb : w.Balanced (v.holdings ++ rest) none)
    (hi : w.heap? i = some h) (ho : ownsAll i v = true)
    (hc : c = { heap := i, number := w.nextCell }) (hS : .cell c ∈ S) :
    Confined S held w ({ w with nextCell := w.nextCell + 1 }.commit i (h.place c v).2).1 := by
  have hheap := hb.heap_of_value hi ho
  have hfresh : ¬h.Live c := hc ▸ hb.not_live_next hi
  obtain ⟨-, hplaced, -, hcells⟩ := hheap.placeOnly hfresh
  obtain ⟨hend, ht⟩ := hheap.place hfresh
  have hself : ({ w with nextCell := w.nextCell + 1 }.commit i (h.place c v).2).1.heap? i =
      some (h.place c v).2.heap := heap?_setHeap_self (w := w) hi _
  constructor
  · rintro (d | e) hnS
    · intro h' cell' hi' hf'
      by_cases hd : i = d.heap
      · subst hd
        rw [hself, Option.some.injEq] at hi'
        subst hi'
        obtain ⟨old, hold, hv, -⟩ := ht.find?_of_find? hplaced.counted hend.counted hf'
        have hm := hplaced.counted.find?_eq_some_iff.mp hold
        rw [hcells] at hm
        rcases List.mem_cons.mp hm with heq | hm
        · cases heq
          exact absurd hS hnS
        · exact ⟨h, old, hi, hheap.counted.find?_eq_some_iff.mpr hm, hv⟩
      · exact ⟨h', cell', (heap?_setHeap_of_ne (w := w) hd _).symm.trans hi', hf', rfl⟩
    · exact fun env he => ⟨env, he, rfl, rfl⟩
  · exact swept_le (.place hi ho hc) hb
  · intro hu _ n hn hdead
    have hswept : (h.place c v).2.heap.counters.swept = h.counters.swept := by
      have := hu i
      rwa [countersOf_of_heap? hself, countersOf_of_heap? hi] at this
    exact gone_commit (w := { w with nextCell := w.nextCell + 1 }) hi (fun d hl hgone =>
      absurd (hheap.live_place hfresh hswept hl) hgone) hn hdead

/-- What changes only scopes of the set destroys nothing. -/
theorem confined_scopes {envs : Std.ExtTreeMap EnvId Environment} {nextEnv : EnvId}
    (hkeep : ∀ (e : EnvId) (env' : Environment), .scope e ∉ S → envs[e]? = some env' →
      ∃ env, w.envs[e]? = some env ∧ env.parent = env'.parent ∧ env.bindings = env'.bindings)
    (hlive : ∀ (e : EnvId) (env : Environment), w.envs[e]? = some env →
      ∃ env', envs[e]? = some env') :
    Confined S held w { w with envs, nextEnv } where
  keeps n hn := by
    cases n with
    | cell c => exact Keeps.refl w (.cell c)
    | scope e => exact fun env' => hkeep e env' hn
  swept _ := Nat.le_refl _
  gone _ _ n hn hdead := by
    cases n with
    | cell c => exact absurd hn hdead
    | scope e =>
        obtain ⟨env, he⟩ := hn
        exact absurd (hlive e env he) hdead

theorem confined_modifyEnv (w : World) (e : EnvId) {f : Environment → Environment}
    (hf : .scope e ∈ S ∨ ∀ env, (f env).parent = env.parent ∧ (f env).bindings = env.bindings) :
    Confined S held w (w.modifyEnv e f) := by
  refine confined_scopes (fun d env' hd he => ?_) fun d env he => ?_
  · rw [Std.ExtTreeMap.getElem?_modify] at he
    split at he
    · rename_i hed
      rw [Std.compare_eq_iff_eq] at hed
      subst hed
      obtain ⟨env, henv, rfl⟩ := Option.map_eq_some_iff.mp he
      obtain ⟨hparent, hbindings⟩ := hf.resolve_left hd env
      exact ⟨env, henv, hparent.symm, hbindings.symm⟩
    · exact ⟨env', he, rfl, rfl⟩
  · rw [Std.ExtTreeMap.getElem?_modify]
    split
    · rename_i hed
      rw [Std.compare_eq_iff_eq] at hed
      subst hed
      exact ⟨f env, by rw [he, Option.map_some]⟩
    · exact ⟨env, he⟩

theorem confined_newEnv (w : World) (parent : Option EnvId) (hS : .scope w.nextEnv ∈ S) :
    Confined S held w (w.newEnv parent).1 := by
  have hinsert : ∀ w' : World, w'.nextEnv = w.nextEnv →
      Confined S held w' { w' with
        envs := w'.envs.insert w'.nextEnv { parent, bindings := ∅, owners := 1 },
        nextEnv := w'.nextEnv + 1 } := by
    intro w' hnext
    refine confined_scopes (fun d env' hd he => ?_) fun d env he => ?_
    · rcases eq_or_of_getElem?_insert he with ⟨rfl, -⟩ | he
      · exact absurd (hnext ▸ hS) hd
      · exact ⟨env', he, rfl, rfl⟩
    · rw [Std.ExtTreeMap.getElem?_insert]
      split
      · exact ⟨_, rfl⟩
      · exact ⟨env, he⟩
  cases parent with
  | none => exact hinsert w rfl
  | some p =>
      have hshare : Confined S held w (w.shareEnv p) :=
        w.confined_modifyEnv p (.inr fun _ => ⟨rfl, rfl⟩)
      exact hshare.trans (hinsert (w.shareEnv p) rfl)

end Steps

section Operations

variable {st : Store} {i : HeapId} {e : EnvId}

theorem confined_dropAll {hs : List Handle}
    (hm : Mirrored ⟨w, hs.flatMap Handle.holdings ++ rest, none⟩ st) (hsub : held ⊆ rest) :
    Confined S held w (w.dropAll hs) := by
  refine confined_settle ?_ hsub
  rw [map_holding_dropRoot]
  exact hm.balanced

theorem confined_drop {h : Handle} (hm : Mirrored ⟨w, h.holdings ++ rest, none⟩ st)
    (hsub : held ⊆ rest) : Confined S held w (w.drop h) := by
  have hone : Mirrored ⟨w, [h].flatMap Handle.holdings ++ rest, none⟩ st := by
    rwa [List.flatMap_cons, List.flatMap_nil, List.append_nil]
  exact confined_dropAll hone hsub

theorem confined_discard {v : Value Handle} (hm : Mirrored ⟨w, v.holdings ++ rest, none⟩ st)
    (hsub : held ⊆ rest) : Confined S held w (w.discard v) := by
  refine confined_settle ?_ hsub
  rw [List.map_append, List.map_map, List.map_map]
  exact hm.balanced

theorem confined_allocate {v : Value Handle} (hm : Mirrored ⟨w, v.holdings ++ rest, none⟩ st)
    (hsub : held ⊆ rest) (hS : .cell { heap := i, number := w.nextCell } ∈ S) :
    Confined S held w (w.allocate i v).1 := by
  unfold allocate
  split
  · rename_i ho
    split
    · exact confined_discard hm hsub
    · rename_i h hi
      have hplace : Confined S held w _ := confined_place hm.balanced hi ho rfl hS
      refine hplace.trans (confined_settle (World.Balanced.place hm.balanced hi ho rfl) ?_)
      exact List.Subset.trans hsub (List.subset_cons_self _ _)
  · exact confined_discard hm hsub

theorem confined_consAll {tail : Handle} {items : List Handle}
    (hm : Mirrored ⟨w, tail.holdings ++ (items.flatMap Handle.holdings ++ rest), none⟩ st)
    (hsub : held ⊆ rest) (hS : ∀ c : CellId, w.nextCell ≤ c.number → .cell c ∈ S) :
    Confined S held w (w.consAll i tail items).1 := by
  induction items generalizing w st tail with
  | nil => exact .refl S held w
  | cons item earlier ih =>
      have hpair : Mirrored ⟨w, (Value.pair item tail).holdings ++
          (earlier.flatMap Handle.holdings ++ rest), none⟩ st := by
        apply hm.permute
        rw [holdings_pair, List.flatMap_cons, List.append_assoc, List.append_assoc]
        exact List.perm_append_comm_assoc ..
      have hnext : Moves .all w (w.allocate i (.pair item tail)).1 :=
        w.moves_allocate i _
      have hfirst : Confined S held w (w.allocate i (.pair item tail)).1 :=
        confined_allocate hpair (List.Subset.trans hsub (List.subset_append_right _ _))
          (hS _ (Nat.le_refl _))
      have ho := hpair.allocate i
      rw [consAll]
      generalize w.allocate i (.pair item tail) = out at hnext hfirst ho ⊢
      generalize st.allocate i (Value.pair item tail).placed = out' at ho
      cases ho with
      | ok hm' =>
          refine hfirst.trans (ih hm' fun c hc => hS c ?_)
          exact Nat.le_trans hnext.precedes.nextCell hc
      | error hm' =>
          refine hfirst.trans (confined_dropAll (hm'.permute ?_) hsub)
          exact (holdings_reverse_perm earlier).symm.append_right _

theorem confined_list {items : List Handle}
    (hm : Mirrored ⟨w, items.flatMap Handle.holdings ++ rest, none⟩ st) (hsub : held ⊆ rest)
    (hS : ∀ c : CellId, w.nextCell ≤ c.number → .cell c ∈ S) :
    Confined S held w (w.list i items).1 := by
  have hreverse : Mirrored ⟨w, Handle.holdings none ++
      (items.reverse.flatMap Handle.holdings ++ rest), none⟩ st :=
    hm.permute ((holdings_reverse_perm items).symm.append_right _)
  exact confined_consAll hreverse hsub hS

theorem confined_define {h : Handle} (hm : Mirrored ⟨w, h.holdings ++ rest, none⟩ st)
    (hsub : held ⊆ rest) (he : ∃ env, w.envs[e]? = some env) (hS : .scope e ∈ S)
    (name : String) : Confined S held w (w.define e name h) := by
  have hrebind : Confined S held w (w.rebind e name h).1 := w.confined_modifyEnv e (.inl hS)
  exact hrebind.trans (confined_drop (hm.rebind name he) hsub)

theorem confined_defineAll {bindings : List (String × Handle)}
    (hm : Mirrored ⟨w, (bindings.flatMap fun p => p.2.holdings) ++ rest, none⟩ st)
    (hsub : held ⊆ rest) (he : .share e ∈ rest) (hS : .scope e ∈ S) :
    Confined S held w (w.defineAll e bindings) := by
  induction bindings generalizing w st with
  | nil => exact .refl S held w
  | cons p bindings ih =>
      rw [List.flatMap_cons, List.append_assoc] at hm
      have henv := hm.balanced.env_of_share (List.mem_append_right _ (List.mem_append_right _ he))
      have hsub' : held ⊆ (bindings.flatMap fun p => p.2.holdings) ++ rest :=
        List.Subset.trans hsub (List.subset_append_right _ _)
      exact (confined_define hm hsub' henv hS p.1).trans (ih (hm.define henv))

/-- The binding of arguments is confined to what it makes. -/
theorem confined_bind {args : List Handle} {params : List String} {last : Option String}
    {parent : Option EnvId} (hm : Mirrored ⟨w, args.flatMap Handle.holdings ++ rest, none⟩ st)
    (hsub : held ⊆ rest) (hp : ∀ p ∈ parent, ∃ env, w.envs[p]? = some env)
    (hS : ∀ n, n.Fresh w → n ∈ S) : Confined S held w (w.bind i params last args parent).1 := by
  have hscope : .scope w.nextEnv ∈ S := hS _ (Nat.le_refl w.nextEnv)
  have hcell : ∀ c : CellId, w.nextCell ≤ c.number → .cell c ∈ S := fun c hc => hS (.cell c) hc
  unfold bind
  cases ha : arity params last args.length with
  | error f => exact confined_dropAll hm hsub
  | ok u =>
      obtain ⟨hle, -⟩ := arity_eq_ok ha
      obtain ⟨-, hnew⟩ := hm.newEnv hp
      have hnewEnv : (w.newEnv parent).2 = w.nextEnv := by
        cases parent <;> rfl
      have hfirst : Confined S held w (w.newEnv parent).1 := w.confined_newEnv parent hscope
      have hnext : Moves .all w
          ((w.newEnv parent).1.defineAll (w.newEnv parent).2 (params.zip args)) :=
        (w.moves_newEnv parent).trans (moves_defineAll _ _ _)
      dsimp only
      rw [hnewEnv] at hnew hnext ⊢
      -- the arguments left over are still in hand while the others are bound
      have hargs : Mirrored ⟨(w.newEnv parent).1,
          ((params.zip args).flatMap fun p => p.2.holdings) ++
            ((args.drop params.length).flatMap Handle.holdings ++
              (.share w.nextEnv :: rest)), none⟩ (st.newScope parent).1 := by
        refine hnew.permute ?_
        rw [← List.append_assoc, holdings_zip hle]
        exact List.perm_middle.symm
      have hshare : .share w.nextEnv ∈
          (args.drop params.length).flatMap Handle.holdings ++ (.share w.nextEnv :: rest) :=
        List.mem_append_right _ List.mem_cons_self
      have hsub' : held ⊆ .share w.nextEnv :: rest :=
        List.Subset.trans hsub (List.subset_cons_self _ _)
      have hbound := hfirst.trans (confined_defineAll hargs
        (List.Subset.trans hsub' (List.subset_append_right _ _)) hshare hscope)
      have hdefined := hargs.defineAll hshare
      generalize (w.newEnv parent).1.defineAll w.nextEnv (params.zip args) = w'
        at hnext hbound hdefined ⊢
      cases last with
      | none => exact hbound
      | some name =>
          have hlist : Confined S held w' (w'.list i (args.drop params.length)).1 :=
            confined_list hdefined hsub' fun c hc =>
              hcell c (Nat.le_trans hnext.precedes.nextCell hc)
          have ho := hdefined.list i
          dsimp only
          generalize w'.list i (args.drop params.length) = out at hlist ho ⊢
          generalize Store.list _ i _ = out' at ho
          cases ho with
          | ok hm' =>
              have henv := hm'.balanced.env_of_share
                (List.mem_append_right _ List.mem_cons_self)
              exact (hbound.trans hlist).trans (confined_define hm' hsub' henv hscope name)
          | error hm' =>
              have hleave : Confined S held _ (World.settle _ [.leave w.nextEnv]) :=
                confined_settle hm'.balanced hsub
              exact (hbound.trans hlist).trans hleave

end Operations

end World

end HybridHeap
