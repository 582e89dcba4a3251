import HybridHeap.Proofs.World.Moment
import HybridHeap.Proofs.Unmanaged.Evaluate

/-!
A world and a store without memory management that have done the same. What is still
alive in the world is in the store with the same value; the store may hold more. The
relation `Mirrored` joins this to the moments of runs, so that whatever is owned in the
world can be found in the store.
-/

namespace HybridHeap

open Unmanaged (Store Scope)

/-- The values of the live cells. -/
def Heap.contents (h : Heap) : List (CellId × Value Slot) :=
  h.cells.map fun p => (p.1, p.2.value)

theorem contents_eq (h : Heap) :
    h.contents = (h.cells.map uncounted).map fun p => (p.1, p.2.value) := by
  rw [List.map_map]
  rfl

theorem contents_congr {h h' : Heap} (he : h'.cells.map uncounted = h.cells.map uncounted) :
    h'.contents = h.contents := by
  rw [contents_eq, he, contents_eq]

theorem Reclamation.Thins.contents {r r' : Reclamation} (ht : r.Thins r') :
    r'.heap.contents.Sublist r.heap.contents := by
  rw [contents_eq, contents_eq]
  exact ht.cells.map _

theorem mem_contents_of_find? {h : Heap} (hs : h.objects.Sound) {c : CellId} {cell : Cell}
    (hf : h.find? c = some cell) : (c, cell.value) ∈ h.contents :=
  List.mem_map_of_mem (f := fun p => (p.1, p.2.value)) (hs.find?_eq_some_iff.mp hf)

/-- A scope with the cells that its handles refer to. -/
def Environment.bare (env : Environment) : Scope :=
  { parent := env.parent, bindings := env.bindings.map fun _ h => h.target }

/-- What the world holds is in the store. -/
structure World.Agrees (w : World) (st : Store) : Prop where
  configs : w.heaps.map Heap.config = st.configs
  cells : ∀ i h, w.heap? i = some h → ∀ q ∈ h.contents, st.cells[q.1]? = some q.2
  scopes : ∀ (e : EnvId) (env : Environment), w.envs[e]? = some env → st.scopes[e]? = some env.bare
  nextCell : w.nextCell = st.nextCell
  nextEnv : w.nextEnv = st.nextEnv

/-- A cell that is alive in some heap. -/
def World.Live (w : World) (c : CellId) : Prop :=
  ∃ h, w.heap? c.heap = some h ∧ h.Live c

theorem World.Live.on_heap {w : World} {c : CellId} {i : HeapId} {h : Heap} (hl : w.Live c)
    (hc : c.heap = i) (hi : w.heap? i = some h) : h.Live c := by
  obtain ⟨k, hk, hlive⟩ := hl
  rw [hc, hi, Option.some.injEq] at hk
  exact hk ▸ hlive

namespace World.Agrees

variable {w : World} {st : Store} {held : List Holding} {write : Option Writing}

/-- Another heap, whose cells the store has too. -/
theorem setHeap (ha : w.Agrees st) (hb : w.Balanced held write) {i : HeapId} {h h' : Heap}
    (hi : w.heap? i = some h) (hconfig : h'.config = h.config)
    {cells : Std.ExtTreeMap CellId (Value Slot)}
    (hcells : ∀ q ∈ h'.contents, cells[q.1]? = some q.2)
    (hrest : ∀ d : CellId, d.heap ≠ i → cells[d]? = st.cells[d]?) :
    (w.setHeap i h').Agrees { st with cells } where
  configs := by
    rw [← ha.configs, World.setHeap]
    apply Array.ext_getElem?
    intro j
    rw [Array.getElem?_map, Array.getElem?_map]
    by_cases hij : i = j
    · subst hij
      have hself := World.heap?_setHeap_self hi h'
      simp only [World.heap?, World.setHeap] at hself hi
      rw [hself, hi, Option.map_some, Option.map_some, hconfig]
    · rw [Array.getElem?_setIfInBounds_ne hij]
  cells j k hj q hq := by
    by_cases hij : i = j
    · subst hij
      rw [heap?_setHeap_self hi, Option.some.injEq] at hj
      subst hj
      exact hcells q hq
    · rw [heap?_setHeap_of_ne hij] at hj
      have hheap : q.1.heap = j := by
        obtain ⟨p, hp, rfl⟩ := List.mem_map.mp hq
        exact (hb.heap_lt hj (List.mem_map_of_mem hp)).1
      rw [hrest q.1 (hheap ▸ Ne.symm hij)]
      exact ha.cells j k hj q hq
  scopes := ha.scopes
  nextCell := ha.nextCell
  nextEnv := ha.nextEnv

/-- The store keeps what a heap frees. -/
theorem commit (ha : w.Agrees st) (hb : w.Balanced held write) {i : HeapId} {h : Heap}
    (hi : w.heap? i = some h) {r₀ r : Reclamation} (ht : r₀.Thins r)
    (hconfig : r₀.heap.config = h.config) {cells : Std.ExtTreeMap CellId (Value Slot)}
    (hcells : ∀ q ∈ r₀.heap.contents, cells[q.1]? = some q.2)
    (hrest : ∀ d : CellId, d.heap ≠ i → cells[d]? = st.cells[d]?) :
    (w.commit i r).1.Agrees { st with cells } := by
  have hset := ha.setHeap hb hi (ht.config.trans hconfig)
    (fun q hq => hcells q (ht.contents.mem hq)) hrest
  exact ⟨hset.configs, hset.cells, hset.scopes, hset.nextCell, hset.nextEnv⟩

/-- Giving up an owned root leaves the cells to the store. -/
theorem commit_unrooted (ha : w.Agrees st) {r : Root} (hb : w.Balanced (.root r :: held) write)
    {h : Heap} (hi : w.heap? r.cell.heap = some h) {rec : Reclamation}
    (ht : (h.unroot r).start.Thins rec) : (w.commit r.cell.heap rec).1.Agrees st := by
  obtain ⟨roots, he, -⟩ := (hb.heap_of_root hi).listed.unroot
  rw [he] at ht
  exact ha.commit hb hi ht rfl (ha.cells _ h hi) fun d _ => rfl

/-- Another environment for the scope that the store has. -/
theorem insertEnv (ha : w.Agrees st) {e : EnvId} {env : Environment}
    (he : st.scopes[e]? = some env.bare) :
    { w with envs := w.envs.insert e env }.Agrees st := by
  refine ⟨ha.configs, ha.cells, fun d env' hd => ?_, ha.nextCell, ha.nextEnv⟩
  rcases eq_or_of_getElem?_insert hd with ⟨rfl, rfl⟩ | hd
  · exact he
  · exact ha.scopes d env' hd

/-- An environment and its scope, new or changed. -/
theorem putEnv (ha : w.Agrees st) (e : EnvId) (env : Environment) {n n' : EnvId} (hn : n = n') :
    { w with envs := w.envs.insert e env, nextEnv := n }.Agrees
      { st with scopes := st.scopes.insert e env.bare, nextEnv := n' } := by
  refine ⟨ha.configs, ha.cells, fun d env' hd => ?_, ha.nextCell, hn⟩
  simp only [Std.ExtTreeMap.getElem?_insert] at hd ⊢
  split at hd
  · rename_i hed
    cases hd
    exact if_pos hed
  · rename_i hed
    rw [if_neg hed]
    exact ha.scopes d env' hd

/-- Giving up a share of an environment, the last one or not, leaves the scope to the
store. -/
theorem leave (ha : w.Agrees st) (e : EnvId) : (w.leave e).1.Agrees st := by
  unfold World.leave
  split
  · exact ha
  · rename_i env he
    split
    · refine ⟨ha.configs, ha.cells, fun d env' hd => ?_, ha.nextCell, ha.nextEnv⟩
      rw [Std.ExtTreeMap.getElem?_erase] at hd
      split at hd
      · cases hd
      · exact ha.scopes d env' hd
    · rw [World.modifyEnv, modify_eq_insert he]
      exact ha.insertEnv (ha.scopes e env he)

theorem readCell (ha : w.Agrees st) (hb : w.Balanced held write) {c : CellId} (hl : w.Live c) :
    w.readCell c = st.readCell c := by
  obtain ⟨h, hi, cell, hf⟩ := hl
  have hmem := mem_contents_of_find? (hb.heap _ h hi).counted.sound hf
  rw [World.readCell, hi, Store.readCell, ha.cells _ h hi _ hmem]
  simp [Heap.read, hf]

theorem readSlot (ha : w.Agrees st) (hb : w.Balanced held write) {s : Slot}
    (hl : ∀ c ∈ s, w.Live c) : w.readSlot s = st.read s := by
  cases s with
  | none => rfl
  | some c => exact ha.readCell hb (hl c rfl)

end World.Agrees

/-- A moment of a run and a store that has done the same. -/
structure Mirrored (m : Moment) (st : Store) : Prop where
  reached : m.Reachable
  agrees : m.world.Agrees st

namespace Mirrored

variable {w : World} {st : Store} {held held' : List Holding} {write : Option Writing}

theorem balanced (hm : Mirrored ⟨w, held, write⟩ st) : w.Balanced held write :=
  hm.reached.balanced

theorem permute (hm : Mirrored ⟨w, held, write⟩ st) (hp : held.Perm held') :
    Mirrored ⟨w, held', write⟩ st :=
  ⟨hm.reached.step (.permute hp), hm.agrees⟩

theorem start (configs : Array Config) (dropOrder : EnvId → DropOrder) :
    Mirrored ⟨World.new configs dropOrder, [], none⟩ (Store.new configs) := by
  refine ⟨.start configs dropOrder, ?_, fun i h hi q hq => ?_, fun e env he => ?_, rfl, rfl⟩
  · simp [World.new, Store.new, Heap.new, Function.comp_def]
  · simp only [World.heap?, World.new, Array.getElem?_map, Option.map_eq_some_iff] at hi
    obtain ⟨config, -, rfl⟩ := hi
    cases hq
  · simp [World.new] at he

/-- Chores leave the store alone. -/
theorem chore {c : Chore} (hm : Mirrored ⟨w, c.holding :: held, write⟩ st) :
    Mirrored ⟨(w.doChore c).1, (w.doChore c).2.map Chore.holding ++ held, write⟩ st := by
  refine ⟨hm.reached.step (.chore c), ?_⟩
  have hb := hm.balanced
  cases c with
  | dropRoot r =>
      obtain ⟨h, hi, -⟩ := hb.live List.mem_cons_self
      simp only [World.doChore, World.reclaim, hi]
      exact hm.agrees.commit_unrooted hb hi (hb.heap_of_root hi).dropRoot.2
  | dropAnchor r =>
      obtain ⟨h, hi, -⟩ := hb.live List.mem_cons_self
      simp only [World.doChore, World.reclaim, hi]
      exact hm.agrees.commit_unrooted hb hi (hb.heap_of_root hi).dropAnchor.2.2
  | leave e => exact hm.agrees.leave e

/-- Doing chores, with everything that they give rise to. -/
theorem settle {chores : List Chore}
    (hm : Mirrored ⟨w, chores.map Chore.holding ++ held, write⟩ st) :
    Mirrored ⟨w.settle chores, held, write⟩ st := by
  fun_induction World.settle w chores with
  | case1 w => exact hm
  | case2 w c rest ih =>
      apply ih
      rw [List.map_append, List.append_assoc]
      exact hm.chore

end Mirrored

end HybridHeap
