import HybridHeap.Proofs.Session.Accounts
import HybridHeap.Proofs.World.Graph

/-!
The counts of a world as a whole. A cell is counted, and an environment is owned, as often
as it is held from outside and referred to by what is alive (`World.Balanced.tally_eq`). So
the counts of two worlds differ by what is held in each of them and by the references of
what is gone, of what is new and of what has changed (`World.Balanced.tally_transfer`).
-/

namespace HybridHeap

theorem count_flatMap_congr {α β γ : Type} [BEq α] [BEq β] {l : List γ} {f : γ → List α}
    {g : γ → List β} {a : α} {b : β} (h : ∀ x ∈ l, (f x).count a = (g x).count b) :
    (l.flatMap f).count a = (l.flatMap g).count b := by
  rw [List.count_flatMap, List.count_flatMap]
  exact congrArg List.sum (List.map_congr_left h)

/-- The nodes that a value refers to, as often as it does. -/
def Value.refs (v : Value Slot) : List Node :=
  v.targets.map .cell ++ v.env?.toList.map .scope

/-- The nodes that an environment refers to, as often as it does. -/
def Environment.refs (env : Environment) : List Node :=
  (env.roots.map fun r => .cell r.cell) ++ env.parent.toList.map .scope

namespace Node

theorem cell_injective : Function.Injective cell :=
  fun _ _ h => by cases h; rfl

theorem scope_injective : Function.Injective scope :=
  fun _ _ h => by cases h; rfl

theorem count_cell (cs : List CellId) (es : List EnvId) (c : CellId) :
    (cs.map cell ++ es.map scope).count (cell c) = cs.count c := by
  have hscopes : (es.map scope).count (cell c) = 0 := List.count_eq_zero.mpr (by simp)
  rw [List.count_append, List.count_map_of_injective cs cell cell_injective, hscopes, Nat.add_zero]

theorem count_scope (cs : List CellId) (es : List EnvId) (e : EnvId) :
    (cs.map cell ++ es.map scope).count (scope e) = es.count e := by
  have hcells : (cs.map cell).count (scope e) = 0 := List.count_eq_zero.mpr (by simp)
  rw [List.count_append, List.count_map_of_injective es scope scope_injective, hcells,
    Nat.zero_add]

end Node

section Refs

variable {c : CellId} {e : EnvId}

theorem Value.count_refs_cell (v : Value Slot) :
    v.refs.count (.cell c) = v.children.count (some c) := by
  rw [refs, Node.count_cell, ← count_filterMap_id]
  rfl

theorem Value.count_refs_scope (v : Value Slot) :
    v.refs.count (.scope e) = v.env?.toList.count e :=
  Node.count_scope _ _ e

theorem Environment.count_refs_cell (env : Environment) :
    env.refs.count (.cell c) = (env.roots.map Root.cell).count c := by
  rw [refs, ← Node.count_cell (env.roots.map Root.cell) env.parent.toList c, List.map_map]
  rfl

theorem Environment.count_refs_scope (env : Environment) :
    env.refs.count (.scope e) = env.parent.toList.count e := by
  rw [refs, ← Node.count_scope (env.roots.map Root.cell) env.parent.toList e, List.map_map]
  rfl

theorem count_node_cell (held : List Holding) :
    (held.map Holding.node).count (.cell c) = ((heldRoots held).map Root.cell).count c := by
  induction held with
  | nil => rfl
  | cons x held ih =>
      cases x with
      | root r =>
          rw [List.map_cons, heldRoots_root, List.map_cons, List.count_cons, List.count_cons, ih]
          simp [Holding.node]
      | share d =>
          rw [List.map_cons, heldRoots_share, List.count_cons_of_ne (by simp [Holding.node]), ih]

theorem count_node_scope (held : List Holding) :
    (held.map Holding.node).count (.scope e) = (heldShares held).count e := by
  induction held with
  | nil => rfl
  | cons x held ih =>
      cases x with
      | root r =>
          rw [List.map_cons, heldShares_root, List.count_cons_of_ne (by simp [Holding.node]), ih]
      | share d =>
          rw [List.map_cons, heldShares_share, List.count_cons, List.count_cons, ih]
          simp [Holding.node]

end Refs

namespace World

/-- What a node refers to. -/
def refs (w : World) : Node → List Node
  | .cell c => (w.readCell c).refs
  | .scope e => (w.envs[e]?).toList.flatMap Environment.refs

/-- The count of a cell, the number of owners of an environment. -/
def tally (w : World) : Node → Nat
  | .cell c => ((w.heap? c.heap).map fun h => h.countOf c).getD 0
  | .scope e => w.ownersOf e

/-- What is alive in `w` and not in `w'`. -/
def gone (w w' : World) : List Node :=
  w.nodes.filter (· ∉ w'.nodes)

/-- What is alive in both worlds. -/
def common (w w' : World) : List Node :=
  w.nodes.filter (· ∈ w'.nodes)

theorem nodes_perm_gone (w w' : World) : w.nodes.Perm (w.gone w' ++ w.common w') := by
  have hsplit := List.filter_append_perm (· ∈ w'.nodes) w.nodes
  rw [gone, common]
  simp only [decide_not]
  exact hsplit.symm.trans List.perm_append_comm

variable {w w' : World} {held : List Holding} {write : Option Writing} {n : Node}

/-- What is alive and as it was refers to the same. -/
theorem Keeps.refs_eq (hk : w.Keeps w' n) (hn : w'.Alive n) : w'.refs n = w.refs n := by
  cases n with
  | cell c => simp only [refs, hk.readCell_eq hn]
  | scope e =>
      obtain ⟨env', he'⟩ := hn
      obtain ⟨env, he, hparent, hbindings⟩ := hk env' he'
      simp only [refs, he, he', Option.toList_some, List.flatMap_singleton, Environment.refs,
        Environment.roots, hparent, hbindings]

namespace Balanced

theorem nodup_nodes (hb : w.Balanced held write) : w.nodes.Nodup := by
  have hhome : ∀ i h, w.heaps.toList[i]? = some h →
      ∀ n ∈ h.cells.map (fun p => Node.cell p.1), ∃ c : CellId, n = .cell c ∧ c.heap = i := by
    intro i h hi n hn
    rw [Array.getElem?_toList] at hi
    obtain ⟨p, hp, rfl⟩ := List.mem_map.mp hn
    exact ⟨p.1, rfl, (hb.heap_lt hi (List.mem_map_of_mem hp)).1⟩
  rw [nodes, List.nodup_append, List.nodup_flatMap]
  refine ⟨⟨fun h hh => ?_, ?_⟩, ?_, ?_⟩
  · obtain ⟨i, hi⟩ := mem_heaps.mp hh
    have hkeys := (hb.heap i h hi).counted.sound.nodup.map Node.cell_injective
    rwa [List.map_map] at hkeys
  · -- a cell is on the heap that its name says
    rw [List.pairwise_iff_getElem]
    intro i j hi hj hij n hn hn'
    obtain ⟨c, rfl, hc⟩ := hhome i _ (List.getElem?_eq_getElem hi) n hn
    obtain ⟨d, hd, hdj⟩ := hhome j _ (List.getElem?_eq_getElem hj) _ hn'
    cases hd
    exact absurd (hc.symm.trans hdj) (Nat.ne_of_lt hij)
  · have hkeys : (w.envs.toList.map Prod.fst).Nodup :=
      List.pairwise_map.mpr (w.envs.distinct_keys_toList.imp fun hne he => hne (by simp [he]))
    have hscopes := hkeys.map Node.scope_injective
    rwa [List.map_map] at hscopes
  · intro n hn m hm hnm
    obtain ⟨h, -, hn⟩ := List.mem_flatMap.mp hn
    obtain ⟨p, -, rfl⟩ := List.mem_map.mp hn
    obtain ⟨q, -, rfl⟩ := List.mem_map.mp hm
    cases hnm

/-- All references in a world, heap by heap and environment by environment. -/
theorem refs_nodes (hb : w.Balanced held write) : w.nodes.flatMap w.refs =
    (w.heaps.toList.flatMap fun h => h.cells.flatMap fun p => p.2.value.refs) ++
      w.envs.toList.flatMap fun p => p.2.refs := by
  rw [nodes, List.flatMap_append, List.flatMap_assoc, List.flatMap_map]
  congr 1
  · refine List.flatMap_congr fun h hh => ?_
    obtain ⟨i, hi⟩ := mem_heaps.mp hh
    rw [List.flatMap_map]
    refine List.flatMap_congr fun p hp => ?_
    obtain ⟨hself, hf⟩ := hb.heap?_of_mem hi hp
    simp only [refs, readCell, hself, Heap.read, hf]
  · refine List.flatMap_congr fun p hp => ?_
    have he : w.envs[p.1]? = some p.2 := Std.ExtTreeMap.mem_toList_iff_getElem?_eq_some.mp hp
    simp only [refs, he, Option.toList_some, List.flatMap_singleton]

theorem count_refs_cell (hb : w.Balanced held write) (c : CellId) :
    (w.nodes.flatMap w.refs).count (.cell c) =
      w.slots.count (some c) + (w.bound.map Root.cell).count c := by
  rw [hb.refs_nodes, List.count_append]
  congr 1
  · exact count_flatMap_congr fun h _ => count_flatMap_congr fun p _ => p.2.value.count_refs_cell
  · rw [bound, values_eq_map_snd, List.flatMap_map, List.map_flatMap]
    exact count_flatMap_congr fun p _ => p.2.count_refs_cell

/-- What is alive is counted. -/
theorem tally_pos (hb : w.Balanced held write) {c : CellId} (hl : w.Live c) :
    0 < w.tally (.cell c) := by
  obtain ⟨h, hi, cell, hf⟩ := hl
  simp only [tally, hi, Option.map_some, Option.getD_some, Heap.countOf_of_find? hf]
  exact (hb.heap _ h hi).counted.positive _ cell hf

theorem count_refs_scope (hb : w.Balanced held write) (e : EnvId) :
    (w.nodes.flatMap w.refs).count (.scope e) = w.closures.count e + w.parents.count e := by
  rw [hb.refs_nodes, List.count_append]
  congr 1
  · refine count_flatMap_congr fun h _ => ?_
    rw [Heap.closures, List.filterMap_eq_flatMap_toList]
    exact count_flatMap_congr fun p _ => p.2.value.count_refs_scope
  · rw [parents, values_eq_map_snd, List.filterMap_map, List.filterMap_eq_flatMap_toList]
    exact count_flatMap_congr fun p _ => p.2.count_refs_scope

/-- Everything is counted as often as it is held and referred to. -/
theorem tally_eq (hb : w.Balanced held none) (hn : w.Alive n) :
    w.tally n = (held.map Holding.node).count n + (w.nodes.flatMap w.refs).count n := by
  cases n with
  | cell c =>
      obtain ⟨h, hi, -⟩ := hn
      have hheap := hb.heap _ h hi
      have hcount := hheap.counted.count c
      rw [hheap.deferred rfl, List.append_nil, writeIn_none, countedRoots_none,
        count_cell_rootsIn, List.map_append, List.count_append, ← hb.count_slots hi] at hcount
      rw [hb.count_refs_cell, count_node_cell]
      simp only [tally, hi, Option.map_some, Option.getD_some]
      omega
  | scope e =>
      have howners := hb.owners e
      rw [List.count_append, List.count_append] at howners
      rw [hb.count_refs_scope, count_node_scope]
      simp only [tally]
      omega

section Transfer

variable {held' : List Holding} {fresh changed : List Node}

theorem mem_common (hb : w.Balanced held none) (hb' : w'.Balanced held' none) :
    n ∈ w.common w' ↔ w.Alive n ∧ w'.Alive n := by
  simp [common, hb.mem_nodes, hb'.mem_nodes]

theorem mem_gone (hb : w.Balanced held none) (hb' : w'.Balanced held' none) :
    n ∈ w.gone w' ↔ w.Alive n ∧ ¬w'.Alive n := by
  simp [gone, hb.mem_nodes, hb'.mem_nodes]

theorem nodup_common (hb : w.Balanced held none) (w' : World) : (w.common w').Nodup :=
  hb.nodup_nodes.filter _

theorem nodes_perm_fresh (hb : w.Balanced held none) (hb' : w'.Balanced held' none)
    (hdistinct : fresh.Nodup) (hfresh : ∀ m ∈ fresh, w'.Alive m ∧ ¬w.Alive m)
    (hold : ∀ m, w'.Alive m → m ∉ fresh → w.Alive m) :
    w'.nodes.Perm (fresh ++ w.common w') := by
  have hnodup : (fresh ++ w.common w').Nodup := by
    refine List.nodup_append.mpr ⟨hdistinct, hb.nodup_common w', ?_⟩
    rintro m hm _ hm' rfl
    exact (hfresh m hm).2 ((hb.mem_common hb').mp hm').1
  refine (List.perm_ext_iff_of_nodup hb'.nodup_nodes hnodup).mpr fun m => ?_
  rw [hb'.mem_nodes, List.mem_append, hb.mem_common hb']
  constructor
  · intro hm
    exact or_iff_not_imp_left.mpr fun hf => ⟨hold m hm hf, hm⟩
  · exact fun hm => hm.elim (fun hm => (hfresh m hm).1) fun hm => hm.2

/-- The counts of two worlds differ by what is held, by the references of what is gone and of
what is new, and by those of what has changed. -/
theorem tally_transfer (hb : w.Balanced held none) (hb' : w'.Balanced held' none)
    (fresh changed : List Node) (hdistinct : fresh.Nodup)
    (hfresh : ∀ m ∈ fresh, w'.Alive m ∧ ¬w.Alive m)
    (hchanges : changed.Nodup) (hchanged : ∀ m ∈ changed, w'.Alive m ∧ w.Alive m)
    (hsame : ∀ m, w'.Alive m → m ∉ fresh → w.Alive m ∧ (m ∉ changed → w'.refs m = w.refs m))
    (hn : w.Alive n) (hn' : w'.Alive n) :
    w'.tally n + (held.map Holding.node).count n + ((w.gone w').flatMap w.refs).count n +
        (changed.flatMap w.refs).count n =
      w.tally n + (held'.map Holding.node).count n + (fresh.flatMap w'.refs).count n +
        (changed.flatMap w'.refs).count n := by
  have hafter := hb.nodes_perm_fresh hb' hdistinct hfresh fun m hm hf => (hsame m hm hf).1
  -- what is in both worlds has changed or refers to the same in both
  have hsplit : (w.common w').Perm (changed ++ (w.common w').filter (· ∉ changed)) := by
    have hperm : ((w.common w').filter (· ∈ changed)).Perm changed := by
      rw [List.perm_ext_iff_of_nodup ((hb.nodup_common w').filter _) hchanges]
      intro m
      simp only [List.mem_filter, decide_eq_true_eq, and_iff_right_iff_imp, hb.mem_common hb']
      exact fun hm => (hchanged m hm).symm
    have hparts := List.filter_append_perm (· ∈ changed) (w.common w')
    simp only [decide_not]
    exact hparts.symm.trans (hperm.append_right _)
  have hrefs : ((w.common w').filter (· ∉ changed)).flatMap w'.refs =
      ((w.common w').filter (· ∉ changed)).flatMap w.refs := by
    refine List.flatMap_congr fun m hm => ?_
    obtain ⟨hm, hne⟩ := List.mem_filter.mp hm
    obtain ⟨halive, halive'⟩ := (hb.mem_common hb').mp hm
    exact (hsame m halive' fun hf => (hfresh m hf).2 halive).2 (of_decide_eq_true hne)
  have hcount := ((nodes_perm_gone w w').flatMap_right w.refs).count_eq n
  have hcount' := (hafter.flatMap_right w'.refs).count_eq n
  have hparts := (hsplit.flatMap_right w.refs).count_eq n
  have hparts' := (hsplit.flatMap_right w'.refs).count_eq n
  rw [List.flatMap_append, List.count_append] at hcount hcount' hparts hparts'
  rw [hrefs] at hparts'
  rw [hb.tally_eq hn, hb'.tally_eq hn']
  omega

end Transfer

/-- A world that has less is behind in its counts by what was given up and by the references of
what it lacks. -/
theorem tally_give {w₀ : World} {given : List Holding} (hb : w'.Balanced held none)
    (hb₀ : w₀.Balanced (given ++ held) none)
    (hsub : ∀ n, w'.Alive n → w₀.Alive n ∧ w'.refs n = w₀.refs n) (hn : w'.Alive n) :
    w'.tally n + ((w₀.gone w').flatMap w₀.refs).count n + (given.map Holding.node).count n =
      w₀.tally n := by
  have htransfer := hb₀.tally_transfer hb [] [] .nil
    (fun _ hm => by cases hm) .nil (fun _ hm => by cases hm)
    (fun m hm _ => ⟨(hsub m hm).1, fun _ => (hsub m hm).2⟩) (hsub n hn).1 hn
  simp only [List.flatMap_nil, List.count_nil, List.map_append, List.count_append] at htransfer
  omega

theorem tally_add {w₀ : World} (hb : w'.Balanced held none) (hb₀ : w₀.Balanced held none)
    (hsub : ∀ n, w'.Alive n → w₀.Alive n ∧ w'.refs n = w₀.refs n) (hn : w'.Alive n) :
    w'.tally n + ((w₀.gone w').flatMap w₀.refs).count n = w₀.tally n := by
  have hgive := hb.tally_give (List.nil_append held ▸ hb₀) hsub hn
  rwa [List.map_nil, List.count_nil, Nat.add_zero] at hgive

end Balanced

end World

end HybridHeap
