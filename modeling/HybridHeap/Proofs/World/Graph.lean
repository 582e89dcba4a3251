import HybridHeap.Proofs.Heap.Acyclic
import HybridHeap.Proofs.Mirror.World

/-!
The graph of a world. Slots lead from cell to cell, a closure leads to its environment,
and an environment to the cells that it binds and to its parent. Between operations
everything alive has an owner or a predecessor, so it is reached from what is owned or
from a cycle.
-/

namespace HybridHeap

open Relation (ReflTransGen TransGen)

inductive Node
  | cell (c : CellId)
  | scope (e : EnvId)
  deriving DecidableEq

/-- What a holding keeps alive. -/
def Holding.node : Holding → Node
  | root r => .cell r.cell
  | share e => .scope e

theorem Handle.node_holdings (h : Handle) :
    h.holdings.map Holding.node = h.target.toList.map .cell := by
  cases h <;> rfl

namespace World

inductive Edge (w : World) : Node → Node → Prop
  | slot {c d : CellId} {h : Heap} {cell : Cell} (hi : w.heap? c.heap = some h)
      (hf : h.find? c = some cell) (hd : d ∈ cell.value.targets) : Edge w (.cell c) (.cell d)
  | captured {c : CellId} {e : EnvId} {h : Heap} {cell : Cell} (hi : w.heap? c.heap = some h)
      (hf : h.find? c = some cell) (he : cell.value.env? = some e) : Edge w (.cell c) (.scope e)
  | bound {e : EnvId} {env : Environment} {r : Root} (he : w.envs[e]? = some env)
      (hr : r ∈ env.roots) : Edge w (.scope e) (.cell r.cell)
  | parent {e p : EnvId} {env : Environment} (he : w.envs[e]? = some env)
      (hp : env.parent = some p) : Edge w (.scope e) (.scope p)

/-- The second node can be reached from the first, which may be the same. -/
def Leads (w : World) : Node → Node → Prop :=
  ReflTransGen w.Edge

/-- A path of at least one edge leads back to the node. -/
def OnCycle (w : World) (n : Node) : Prop :=
  TransGen w.Edge n n

def Alive (w : World) : Node → Prop
  | .cell c => w.Live c
  | .scope e => ∃ env, w.envs[e]? = some env

/-- Everything that is alive. -/
def nodes (w : World) : List Node :=
  (w.heaps.toList.flatMap fun h => h.cells.map fun p => .cell p.1) ++
    w.envs.toList.map fun p => .scope p.1

/-- A node that is alive in `w'` was alive in `w`, with the same value, or with the same
parent and the same bindings. -/
def Keeps (w w' : World) : Node → Prop
  | .cell c => ∀ h' cell', w'.heap? c.heap = some h' → h'.find? c = some cell' →
    ∃ h cell, w.heap? c.heap = some h ∧ h.find? c = some cell ∧ cell.value = cell'.value
  | .scope e => ∀ env' : Environment, w'.envs[e]? = some env' →
    ∃ env, w.envs[e]? = some env ∧ env.parent = env'.parent ∧ env.bindings = env'.bindings

section Keeps

variable {w w' w'' : World} {m n : Node}

theorem Edge.alive (he : w.Edge m n) : w.Alive m := by
  cases he with
  | slot hi hf _ => exact ⟨_, hi, _, hf⟩
  | captured hi hf _ => exact ⟨_, hi, _, hf⟩
  | bound he _ => exact ⟨_, he⟩
  | parent he _ => exact ⟨_, he⟩

namespace Keeps

theorem refl (w : World) (n : Node) : w.Keeps w n := by
  cases n with
  | cell c => exact fun h cell hi hf => ⟨h, cell, hi, hf, rfl⟩
  | scope e => exact fun env he => ⟨env, he, rfl, rfl⟩

theorem trans (hk : w.Keeps w' n) (hk' : w'.Keeps w'' n) : w.Keeps w'' n := by
  cases n with
  | cell c =>
      intro h'' cell'' hi'' hf''
      obtain ⟨h', cell', hi', hf', hv'⟩ := hk' h'' cell'' hi'' hf''
      obtain ⟨h, cell, hi, hf, hv⟩ := hk h' cell' hi' hf'
      exact ⟨h, cell, hi, hf, hv.trans hv'⟩
  | scope e =>
      intro env'' he''
      obtain ⟨env', he', hp', hb'⟩ := hk' env'' he''
      obtain ⟨env, he, hp, hb⟩ := hk env' he'
      exact ⟨env, he, hp.trans hp', hb.trans hb'⟩

theorem alive (hk : w.Keeps w' n) (hn : w'.Alive n) : w.Alive n := by
  cases n with
  | cell c =>
      obtain ⟨h', hi', cell', hf'⟩ := hn
      obtain ⟨h, cell, hi, hf, -⟩ := hk h' cell' hi' hf'
      exact ⟨h, hi, cell, hf⟩
  | scope e =>
      obtain ⟨env', he'⟩ := hn
      obtain ⟨env, he, -⟩ := hk env' he'
      exact ⟨env, he⟩

theorem readCell_eq {c : CellId} (hk : w.Keeps w' (.cell c)) (hl : w'.Live c) :
    w'.readCell c = w.readCell c := by
  obtain ⟨h', hi', cell', hf'⟩ := hl
  obtain ⟨h, cell, hi, hf, hv⟩ := hk h' cell' hi' hf'
  simp only [readCell, hi, hi', Heap.read, hf, hf', hv]

/-- It leads to nothing else than before. -/
theorem edge (hk : w.Keeps w' m) (he : w'.Edge m n) : w.Edge m n := by
  cases he with
  | slot hi hf hd =>
      obtain ⟨h, cell, hi, hf, hv⟩ := hk _ _ hi hf
      exact .slot hi hf (hv ▸ hd)
  | captured hi hf he =>
      obtain ⟨h, cell, hi, hf, hv⟩ := hk _ _ hi hf
      exact .captured hi hf (hv ▸ he)
  | @bound e env' r he hr =>
      obtain ⟨env, he, -, hbindings⟩ := hk _ he
      refine .bound he ?_
      rwa [Environment.roots, hbindings]
  | parent he hp =>
      obtain ⟨env, he, hparent, -⟩ := hk _ he
      exact .parent he (hparent.trans hp)

/-- As long as it is alive it leads to all that it led to. -/
theorem edge_of_alive (hk : w.Keeps w' m) (hm : w'.Alive m) (he : w.Edge m n) :
    w'.Edge m n := by
  cases he with
  | @slot c d h cell hi hf hd =>
      obtain ⟨h', hi', cell', hf'⟩ := hm
      obtain ⟨k, old, hkeep, hold, hv⟩ := hk h' cell' hi' hf'
      cases hi.symm.trans hkeep
      cases hf.symm.trans hold
      exact .slot hi' hf' (hv ▸ hd)
  | @captured c e h cell hi hf he =>
      obtain ⟨h', hi', cell', hf'⟩ := hm
      obtain ⟨k, old, hkeep, hold, hv⟩ := hk h' cell' hi' hf'
      cases hi.symm.trans hkeep
      cases hf.symm.trans hold
      exact .captured hi' hf' (hv ▸ he)
  | @bound e env r he hr =>
      obtain ⟨env', he'⟩ := hm
      obtain ⟨old, hold, -, hbindings⟩ := hk env' he'
      cases he.symm.trans hold
      refine .bound he' ?_
      rwa [Environment.roots, ← hbindings]
  | @parent e p env he hp =>
      obtain ⟨env', he'⟩ := hm
      obtain ⟨old, hold, hparent, -⟩ := hk env' he'
      cases he.symm.trans hold
      exact .parent he' (hparent ▸ hp)

end Keeps

end Keeps

namespace Balanced

variable {w : World} {held : List Holding} {write : Option Writing} {i : HeapId} {h : Heap}

/-- A cell of a heap, found by its own name. -/
theorem heap?_of_mem (hb : w.Balanced held write) (hi : w.heap? i = some h)
    {p : CellId × Cell} (hp : p ∈ h.cells) :
    w.heap? p.1.heap = some h ∧ h.find? p.1 = some p.2 := by
  obtain ⟨rfl, -⟩ := hb.heap_lt hi (List.mem_map_of_mem hp)
  exact ⟨hi, (hb.heap _ h hi).counted.find?_eq_some_iff.mpr hp⟩

/-- Nothing that is alive refers to what is not. -/
theorem alive_of_edge (hb : w.Balanced held write) {m n : Node} (he : w.Edge m n) :
    w.Alive n := by
  cases he with
  | @slot c d h cell hi hf hd =>
      have hl := (hb.heap _ h hi).counted.live_of_target hf hd
      have hheap : d.heap = c.heap := (hb.cells _ h hi d hl).1
      exact ⟨h, hheap.symm ▸ hi, hl⟩
  | captured hi hf he => exact hb.env_of_closure hi hf he
  | bound he hr =>
      exact hb.live_of_mem (List.mem_append_right _ (mem_bound.mpr ⟨_, _, he, hr⟩))
  | parent he hp => exact hb.env_of_parent he hp

/-- What is held is alive. -/
theorem alive_of_held (hb : w.Balanced held write) {n : Node} (hn : n ∈ held.map Holding.node) :
    w.Alive n := by
  obtain ⟨x, hx, rfl⟩ := List.mem_map.mp hn
  cases x with
  | root r => exact hb.live hx
  | share e => exact hb.env_of_share hx

/-- Where nothing has changed, everything that could be reached stays alive with a node. -/
theorem alive_of_leads {w' : World} (hb : w'.Balanced held write) (hk : ∀ n, w.Keeps w' n)
    {m n : Node} (hm : w'.Alive m) (hp : w.Leads m n) : w'.Alive n := by
  induction hp with
  | refl => exact hm
  | tail _ hedge ih => exact hb.alive_of_edge ((hk _).edge_of_alive ih hedge)

theorem mem_nodes (hb : w.Balanced held write) {n : Node} : n ∈ w.nodes ↔ w.Alive n := by
  rw [nodes, List.mem_append, List.mem_flatMap, List.mem_map]
  constructor
  · rintro (⟨h, hh, hm⟩ | ⟨p, hp, rfl⟩)
    · obtain ⟨p, hp, rfl⟩ := List.mem_map.mp hm
      obtain ⟨i, hi⟩ := mem_heaps.mp hh
      obtain ⟨hself, hf⟩ := hb.heap?_of_mem hi hp
      exact ⟨h, hself, p.2, hf⟩
    · exact ⟨p.2, Std.ExtTreeMap.mem_toList_iff_getElem?_eq_some.mp hp⟩
  · intro hn
    cases n with
    | cell c =>
        obtain ⟨h, hi, cell, hf⟩ := hn
        refine .inl ⟨h, mem_heaps.mpr ⟨_, hi⟩, ?_⟩
        exact List.mem_map.mpr ⟨(c, cell), (hb.heap _ h hi).counted.find?_eq_some_iff.mp hf, rfl⟩
    | scope e =>
        obtain ⟨env, he⟩ := hn
        exact .inr ⟨(e, env), Std.ExtTreeMap.mem_toList_iff_getElem?_eq_some.mpr he, rfl⟩

theorem finite_alive (hb : w.Balanced held write) : {n | w.Alive n}.Finite :=
  w.nodes.finite_toSet.subset fun _ hn => hb.mem_nodes.mpr hn

/-- A root of a live cell is held from outside or bound in a scope. -/
theorem held_or_bound {c : CellId} {r : Root} (hr : r ∈ heldRoots held ++ w.bound)
    (hc : r.cell = c) :
    .cell c ∈ held.map Holding.node ∨ ∃ e, w.Alive (.scope e) ∧ w.Edge (.scope e) (.cell c) := by
  subst hc
  rcases List.mem_append.mp hr with hr | hr
  · exact .inl (List.mem_map.mpr ⟨.root r, mem_heldRoots.mp hr, rfl⟩)
  · obtain ⟨e, env, he, hroot⟩ := mem_bound.mp hr
    exact .inr ⟨e, ⟨env, he⟩, .bound he hroot⟩

/-- Whatever is alive is held from outside or has a predecessor that is alive. -/
theorem held_or_edge (hb : w.Balanced held none) {n : Node} (hn : w.Alive n) :
    n ∈ held.map Holding.node ∨ ∃ m, w.Alive m ∧ w.Edge m n := by
  cases n with
  | cell c =>
      obtain ⟨h, hi, hl⟩ := hn
      have hheap := hb.heap _ h hi
      rcases hheap.counted.held_or_edge hl with hm | ⟨d, hd, cell, hf, ht⟩
      · rw [hheap.deferred rfl, List.append_nil, writeIn_none, countedRoots_none] at hm
        obtain ⟨r, hr, hc⟩ := List.mem_map.mp hm
        rcases held_or_bound (List.mem_filter.mp hr).1 hc with ho | ⟨e, he, hedge⟩
        · exact .inl ho
        · exact .inr ⟨.scope e, he, hedge⟩
      · have hself := hb.heap?_of_mem hi (hheap.counted.find?_eq_some_iff.mp hf)
        exact .inr ⟨.cell d, ⟨h, hself.1, hd⟩, .slot hself.1 hf ht⟩
  | scope e =>
      obtain ⟨env, he⟩ := hn
      have hpos := (hb.scopes e env he).2.2
      have howners := hb.owners e
      rw [ownersOf_of_getElem? he] at howners
      have hm : e ∈ heldShares held ++ w.closures ++ w.parents :=
        List.count_pos_iff.mp (howners ▸ hpos)
      rcases List.mem_append.mp hm with hm | hm
      · rcases List.mem_append.mp hm with hm | hm
        · exact .inl (List.mem_map.mpr ⟨.share e, mem_heldShares.mp hm, rfl⟩)
        · -- a closure that shares the environment
          obtain ⟨h, hh, hc⟩ := List.mem_flatMap.mp hm
          obtain ⟨i, hi⟩ := mem_heaps.mp hh
          obtain ⟨p, hp, henv⟩ := List.mem_filterMap.mp hc
          obtain ⟨hheap, hf⟩ := hb.heap?_of_mem hi hp
          exact .inr ⟨.cell p.1, ⟨h, hheap, p.2, hf⟩, .captured hheap hf henv⟩
      · obtain ⟨d, inner, hd, hp⟩ := mem_parents.mp hm
        exact .inr ⟨.scope d, ⟨inner, hd⟩, .parent hd hp⟩

/-- Whatever is alive is reached from what is held or from a cycle. -/
theorem leads_of_alive (hb : w.Balanced held none) {n : Node} (hn : w.Alive n) :
    ∃ m, (m ∈ held.map Holding.node ∨ w.OnCycle m) ∧ w.Leads m n :=
  exists_source_or_cycle hb.finite_alive (fun _ hm => hb.held_or_edge hm) hn

/-- The slots of one heap are edges of the graph. -/
theorem acyclic_heap (hb : w.Balanced held write) (ha : ∀ n, ¬w.OnCycle n)
    (hi : w.heap? i = some h) : h.Acyclic := by
  have hedge : ∀ c d, h.SlotEdge c d → w.Edge (.cell c) (.cell d) := by
    rintro c d ⟨cell, hf, hd⟩
    have hm := (hb.heap i h hi).counted.find?_eq_some_iff.mp hf
    exact .slot (hb.heap?_of_mem hi hm).1 hf hd
  exact fun c hc => ha (.cell c) (hc.lift Node.cell hedge)

end Balanced

end World

end HybridHeap
