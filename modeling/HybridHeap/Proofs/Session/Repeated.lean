import Mathlib.Logic.Function.Iterate
import HybridHeap.Proofs.Session.Cycles
import HybridHeap.Proofs.Session.Twice
import HybridHeap.Proofs.World.Ledger

/-!
Collecting until nothing changes. A collection that frees a closure can make more garbage
when the closure lets go of its environment. One that frees no closure leaves a heap at
rest: its roots reach all of its cells, and further collections only count themselves.
With `n` closures this is so after `n + 1` collections at the latest. What is still there
then is owned by the script or kept by a cycle through an environment.
-/

namespace HybridHeap

open Relation (ReflTransGen TransGen)

/-- Each closure that is freed leaves one chore. -/
theorem Reclamation.Thins.length_closures {r r' : Reclamation} (ht : r.Thins r')
    (hg : r.graveyard = []) :
    r'.payloads.length + r'.heap.closures.length = r.heap.closures.length := by
  have hperm : (heldShares (r'.payloads.map Chore.holding) ++ r'.heap.closures).Perm
      r.heap.closures := by
    rw [List.perm_iff_count]
    intro e
    rw [List.count_append]
    exact ht.count_closures hg e
  have hlength := hperm.length_eq
  rw [List.length_append, heldShares_payloads] at hlength
  rwa [Reclamation.payloads, List.length_map]

theorem Heap.length_closures_le {h h' : Heap} (hs : h'.contents.Sublist h.contents) :
    h'.closures.length ≤ h.closures.length := by
  have hcontents : ∀ h : Heap, h.contents.filterMap (fun q => q.2.env?) = h.closures := by
    intro h
    rw [Heap.contents, List.filterMap_map]
    rfl
  rw [← hcontents, ← hcontents]
  exact (hs.filterMap _).length_le

section Rounds

variable {w : World} {held : List Holding} {i : HeapId} {h : Heap}

/-- The world `w'` is `w` but for the count of collections of the heap `i` and the report
of one that freed nothing. -/
def World.OnlyTallies (i : HeapId) (w w' : World) : Prop :=
  ∃ h traced, w.heap? i = some h ∧
    w' = { w.setHeap i h.tallied with events := h.idleReport traced :: w.events }

theorem World.Balanced.collectNow_of_atRest (hb : w.Balanced held none) (hi : w.heap? i = some h)
    (hr : h.AtRest) :
    w.OnlyTallies i (w.collectNow i) ∧ (w.collectNow i).heap? i = some h.tallied := by
  have hheap := hb.heap i h hi
  rw [writeIn_none] at hheap
  obtain ⟨traced, hcollect⟩ := hheap.collectNow_of_atRest hr
  have hdone : w.collectNow i =
      { w.setHeap i h.tallied with events := h.idleReport traced :: w.events } := by
    simp only [World.collectNow, World.work, hi, hcollect, World.finish, World.commit]
    -- the graveyard is empty, so there is nothing left to do
    exact World.settle_nil _
  refine ⟨⟨h, traced, hi, hdone⟩, ?_⟩
  rw [hdone]
  exact heap?_setHeap_self hi h.tallied

/-- A collection brings the heap to rest, or there are fewer closures afterwards. -/
theorem World.Balanced.atRest_or_fewer (hb : w.Balanced held none) (hi : w.heap? i = some h) :
    ∃ h', (w.collectNow i).heap? i = some h' ∧
      (h'.AtRest ∨ h'.closures.length < h.closures.length) := by
  have hheap := hb.heap i h hi
  rw [writeIn_none] at hheap
  have ht := hheap.collectNow.2
  have hself : (w.commit i h.collectNow).1.heap? i = some h.collectNow.heap :=
    heap?_setHeap_self hi _
  have hdone : w.collectNow i = (w.commit i h.collectNow).1.settle h.collectNow.payloads := by
    simp only [World.collectNow, World.work, hi, World.finish]
    rfl
  have hcount : h.collectNow.payloads.length + h.collectNow.heap.closures.length =
      h.closures.length := ht.length_closures rfl
  rw [hdone]
  by_cases hnone : h.collectNow.payloads = []
  · rw [hnone, World.settle_nil]
    refine ⟨_, hself, .inl ⟨fun c hl => ?_, hheap.exact_collectNow.roomy⟩⟩
    exact hheap.exact_collectNow.reached hheap.counted.sound hheap.collectNow.1.counted.sound hl
  · -- what the closures keep may go too, but nothing comes
    obtain ⟨h', hi', -⟩ := (hb.collectNow hi).worn_settle hself
    obtain ⟨k, hk, hsub⟩ := (hb.collectNow hi).shrinks_settle.contents i h' hi'
    rw [hself, Option.some.injEq] at hk
    subst hk
    refine ⟨h', hi', .inr ?_⟩
    have hle := Heap.length_closures_le hsub
    have hpos := List.length_pos_of_ne_nil hnone
    omega

/-- Several collections in a row. -/
def World.collectTimes (w : World) (i : HeapId) (n : Nat) : World :=
  (fun w => w.collectNow i)^[n] w

theorem World.collectTimes_succ (w : World) (i : HeapId) (n : Nat) :
    w.collectTimes i (n + 1) = (w.collectNow i).collectTimes i n :=
  Function.iterate_succ_apply ..

theorem World.collectTimes_succ' (w : World) (i : HeapId) (n : Nat) :
    w.collectTimes i (n + 1) = (w.collectTimes i n).collectNow i :=
  Function.iterate_succ_apply' ..

theorem World.collectTimes_add (w : World) (i : HeapId) (m k : Nat) :
    (w.collectTimes i m).collectTimes i k = w.collectTimes i (m + k) := by
  induction k with
  | zero => rfl
  | succ k ih => rw [World.collectTimes_succ', ih, ← Nat.add_assoc, World.collectTimes_succ']

theorem Moment.Reachable.collectTimes (hm : Moment.Reachable ⟨w, held, none⟩) (i : HeapId)
    (n : Nat) : Moment.Reachable ⟨w.collectTimes i n, held, none⟩ := by
  induction n with
  | zero => exact hm
  | succ n ih =>
      rw [World.collectTimes_succ']
      exact ih.collectNow i

/-- A heap at rest stays at rest. -/
theorem Moment.Reachable.atRest_collectTimes (hm : Moment.Reachable ⟨w, held, none⟩)
    (hi : w.heap? i = some h) (hr : h.AtRest) (n : Nat) :
    ∃ h', (w.collectTimes i n).heap? i = some h' ∧ h'.AtRest := by
  induction n with
  | zero => exact ⟨h, hi, hr⟩
  | succ n ih =>
      obtain ⟨h', hi', hr'⟩ := ih
      rw [World.collectTimes_succ']
      have hb : (w.collectTimes i n).Balanced held none := (hm.collectTimes i n).balanced
      exact ⟨h'.tallied, (hb.collectNow_of_atRest hi' hr').2, hr'.tallied⟩

/-- With at most `n` closures a heap is at rest after `n + 1` collections. -/
theorem Moment.Reachable.atRest_of_closures (hm : Moment.Reachable ⟨w, held, none⟩)
    (hi : w.heap? i = some h) {n : Nat} (hn : h.closures.length ≤ n) :
    ∃ h', (w.collectTimes i (n + 1)).heap? i = some h' ∧ h'.AtRest := by
  induction n generalizing w h with
  | zero =>
      obtain ⟨h', hi', hrest | hlt⟩ := World.Balanced.atRest_or_fewer hm.balanced hi
      · exact ⟨h', hi', hrest⟩
      · omega
  | succ n ih =>
      rw [World.collectTimes_succ]
      obtain ⟨h', hi', hrest | hlt⟩ := World.Balanced.atRest_or_fewer hm.balanced hi
      · exact (hm.collectNow i).atRest_collectTimes hi' hrest (n + 1)
      · exact ih (hm.collectNow i) hi' (by omega)

theorem Moment.Reachable.shrinks_collectTimes (hm : Moment.Reachable ⟨w, held, none⟩)
    (i : HeapId) (n : Nat) : w.Shrinks (w.collectTimes i n) := by
  induction n with
  | zero => exact .refl w
  | succ n ih =>
      rw [World.collectTimes_succ']
      exact ih.trans (World.Balanced.shrinks_collectNow (hm.collectTimes i n).balanced i)

end Rounds

section Complete

variable {w : World} {held : List Holding} {i : HeapId} {h : Heap}

/-- What the roots of a heap reach is reached from what is held, or from a scope. -/
theorem World.Balanced.held_or_scope (hb : w.Balanced held none) (hi : w.heap? i = some h)
    {c : CellId} (hr : h.Reached c) :
    (∃ n ∈ held.map Holding.node, w.Leads n (.cell c)) ∨
      ∃ e, w.Alive (.scope e) ∧ TransGen w.Edge (.scope e) (.cell c) := by
  induction hr with
  | @source c hs =>
      have hroots := (hb.heap i h hi).listed.roots
      rw [writeIn_none, listedRoots_none] at hroots
      obtain ⟨p, hp, rfl⟩ := List.mem_map.mp hs
      obtain ⟨r, hr, rfl⟩ := List.mem_map.mp (hroots.mem_iff.mp hp)
      rcases held_or_bound (List.mem_filter.mp hr).1 rfl with ho | ⟨e, he, hedge⟩
      · exact .inl ⟨_, ho, .refl⟩
      · exact .inr ⟨e, he, .single hedge⟩
  | slot _ hf hd ih =>
      have hself := hb.heap?_of_mem hi ((hb.heap i h hi).counted.find?_eq_some_iff.mp hf)
      have hedge := World.Edge.slot hself.1 hf hd
      rcases ih with ⟨n, hn, hpath⟩ | ⟨e, he, hpath⟩
      · exact .inl ⟨n, hn, hpath.tail hedge⟩
      · exact .inr ⟨e, he, hpath.tail hedge⟩

/-- Where the roots reach every live cell, what keeps a scope alive is held, or is another
scope. -/
theorem World.Balanced.scope_of_scope (hb : w.Balanced held none) (hi : w.heap? i = some h)
    (hone : ∀ c, w.Live c → c.heap = i) (hall : ∀ c, h.Live c → h.Reached c) {e : EnvId}
    (he : w.Alive (.scope e)) :
    (∃ n ∈ held.map Holding.node, w.Leads n (.scope e)) ∨
      ∃ d, w.Alive (.scope d) ∧ TransGen w.Edge (.scope d) (.scope e) := by
  rcases hb.held_or_edge he with hn | ⟨m, hm, hedge⟩
  · exact .inl ⟨_, hn, .refl⟩
  · cases m with
    | scope d => exact .inr ⟨d, hm, .single hedge⟩
    | cell c =>
        have hl : h.Live c := World.Live.on_heap hm (hone c hm) hi
        rcases hb.held_or_scope hi (hall c hl) with ⟨n, hn, hpath⟩ | ⟨d, hd, hpath⟩
        · exact .inl ⟨n, hn, hpath.tail hedge⟩
        · exact .inr ⟨d, hd, hpath.tail hedge⟩

/-- Where the roots of the only heap reach every live cell, each is reached from what is
held or from a scope that is on a cycle. -/
theorem World.Balanced.complete (hb : w.Balanced held none) (hi : w.heap? i = some h)
    (hone : ∀ c, w.Live c → c.heap = i) (hall : ∀ c, h.Live c → h.Reached c) {c : CellId}
    (hl : w.Live c) :
    ∃ n, (n ∈ held.map Holding.node ∨ ∃ e, n = .scope e ∧ w.OnCycle n) ∧ w.Leads n (.cell c) := by
  have hreached : h.Reached c := hall c (hl.on_heap (hone c hl) hi)
  rcases hb.held_or_scope hi hreached with ⟨n, hn, hpath⟩ | ⟨e, he, hpath⟩
  · exact ⟨n, .inl hn, hpath⟩
  · -- walk backwards from scope to scope
    have hfinite : {e | w.Alive (.scope e)}.Finite :=
      Set.Finite.preimage (f := Node.scope) (fun _ _ _ _ hab => Node.scope.inj hab)
        hb.finite_alive
    obtain ⟨d, hd, hback⟩ := exists_source_or_cycle
      (r := fun d e => TransGen w.Edge (.scope d) (.scope e)) hfinite
      (fun _ he => hb.scope_of_scope hi hone hall he) he
    have hlift : ∀ a b, TransGen (fun d e => TransGen w.Edge (.scope d) (.scope e)) a b →
        TransGen w.Edge (.scope a) (.scope b) :=
      TransGen.lift' Node.scope fun _ _ h => h
    have hfrom : w.Leads (.scope d) (.cell c) := by
      rcases Relation.reflTransGen_iff_eq_or_transGen.mp hback with rfl | hback
      · exact hpath.to_reflTransGen
      · exact ((hlift _ _ hback).trans hpath).to_reflTransGen
    rcases hd with ⟨n, hn, hreach⟩ | hcycle
    · exact ⟨n, .inl hn, hreach.trans hfrom⟩
    · exact ⟨.scope d, .inr ⟨d, rfl, hlift _ _ hcycle⟩, hfrom⟩

end Complete

namespace Session

/-- What several collections in a row come to, from a script with all its cells on the
heap `i`, which has `n` closures: after `n + 1` of them every live cell is reached from
what the script owns or from a cycle through an environment, and all that further ones do
is to count themselves. -/
structure CollectsCompletely (s : Session) (i : HeapId) (n : Nat) : Prop where
  complete : ∀ c, (s.world.collectTimes i (n + 1)).Live c → ∃ m,
    (s.Owns m ∨ ∃ e, m = .scope e ∧ (s.world.collectTimes i (n + 1)).OnCycle m) ∧
      (s.world.collectTimes i (n + 1)).Leads m (.cell c)
  settled : ∀ k, (s.world.collectTimes i (n + 1 + k)).OnlyTallies i
    (s.world.collectTimes i (n + 1 + k + 1))

theorem collects_completely {s : Session} (hs : s.Reachable) {i : HeapId} {h : Heap}
    (hi : s.world.heap? i = some h) (hone : ∀ c, s.world.Live c → c.heap = i) :
    s.CollectsCompletely i h.closures.length := by
  have hm := hs.moment
  obtain ⟨h', hi', hrest⟩ := hm.atRest_of_closures hi (Nat.le_refl _)
  have hm' := hm.collectTimes i (h.closures.length + 1)
  constructor
  · intro c hl
    have hone' : ∀ c, (s.world.collectTimes i (h.closures.length + 1)).Live c → c.heap = i :=
      fun c hc => hone c ((hm.shrinks_collectTimes i _).live hc)
    obtain ⟨m, hsource, hpath⟩ :=
      World.Balanced.complete hm'.balanced hi' hone' hrest.reached hl
    exact ⟨m, hsource.imp owns_of_mem id, hpath⟩
  · intro k
    obtain ⟨h'', hi'', hrest'⟩ := hm'.atRest_collectTimes hi' hrest k
    rw [World.collectTimes_add] at hi''
    have hb : (s.world.collectTimes i (h.closures.length + 1 + k)).Balanced s.holdings none :=
      (hm.collectTimes i _).balanced
    rw [World.collectTimes_succ']
    exact (hb.collectNow_of_atRest hi'' hrest').1

/-- The closure of the stranded pair costs the second of two collections. -/
theorem collects_completely_stranded :
    ∃ h, stranded.world.heap? 1 = some h ∧ h.closures.length = 1 ∧
      (∀ c, stranded.world.Live c → c.heap = 1) ∧
      stranded.CollectsCompletely 1 h.closures.length := by
  have hclosures : (stranded.world.heap? 1).map (fun h => h.closures.length) = some 1 := by
    cbv
  have hheaps : stranded.world.heaps.size = 2 := by
    cbv
  have hshared : stranded.world.idsOf 0 = [] := by
    cbv
  obtain ⟨h, hi, hcount⟩ := Option.map_eq_some_iff.mp hclosures
  have hone : ∀ c, stranded.world.Live c → c.heap = 1 := by
    rintro c ⟨k, hk, hl⟩
    have hlt : c.heap < 2 := hheaps ▸ (Array.getElem?_eq_some_iff.mp hk).1
    have hne : c.heap ≠ 0 := by
      intro hzero
      have hm := (World.mem_idsOf stranded_reachable.moment.balanced hk).mpr hl
      rw [hzero, hshared] at hm
      exact List.not_mem_nil hm
    exact Nat.le_antisymm (Nat.le_of_lt_succ hlt) (Nat.pos_of_ne_zero hne)
  exact ⟨h, hi, hcount, hone, collects_completely stranded_reachable hi hone⟩

end Session

end HybridHeap
