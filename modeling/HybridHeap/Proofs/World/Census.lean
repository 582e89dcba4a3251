import HybridHeap.Proofs.Heap.Update
import HybridHeap.World.Evaluate

/-!
The census of a world. Roots are owned by whoever holds them outside the world and by
the bindings of its environments; shares of an environment are owned from outside, by
the closures in live cells and by inner scopes. `World.Balanced` says that the root
lists, the counts and the numbers of owners are exactly what these add up to, for
given holdings from outside.
-/

namespace HybridHeap

/-- Something owned outside the heaps and the environments of a world: a root, or a
share of an environment. -/
inductive Holding
  | root (r : Root)
  | share (e : EnvId)
  deriving DecidableEq

namespace Holding

def root? : Holding → Option Root
  | root r => some r
  | share _ => none

def share? : Holding → Option EnvId
  | root _ => none
  | share e => some e

end Holding

def Handle.holdings (h : Handle) : List Holding :=
  h.toList.map .root

def Value.holdings (v : Value Handle) : List Holding :=
  v.anchors.map .root ++ v.env?.toList.map .share

/-- What doing a chore gives up. -/
def Chore.holding : Chore → Holding
  | dropRoot r => .root r
  | dropAnchor r => .root r
  | leave e => .share e

def heldRoots (held : List Holding) : List Root :=
  held.filterMap Holding.root?

def heldShares (held : List Holding) : List EnvId :=
  held.filterMap Holding.share?

section Holdings

variable (held held' : List Holding)

@[simp] theorem heldRoots_append :
    heldRoots (held ++ held') = heldRoots held ++ heldRoots held' :=
  List.filterMap_append

@[simp] theorem heldShares_append :
    heldShares (held ++ held') = heldShares held ++ heldShares held' :=
  List.filterMap_append

@[simp] theorem heldRoots_root (r : Root) : heldRoots (.root r :: held) = r :: heldRoots held :=
  rfl

@[simp] theorem heldShares_root (r : Root) : heldShares (.root r :: held) = heldShares held :=
  rfl

@[simp] theorem heldRoots_share (e : EnvId) : heldRoots (.share e :: held) = heldRoots held :=
  rfl

@[simp] theorem heldShares_share (e : EnvId) :
    heldShares (.share e :: held) = e :: heldShares held :=
  rfl

@[simp] theorem heldRoots_map_root (rs : List Root) : heldRoots (rs.map .root) = rs := by
  induction rs with
  | nil => rfl
  | cons r rs ih => rw [List.map_cons, heldRoots_root, ih]

@[simp] theorem heldShares_map_root (rs : List Root) : heldShares (rs.map .root) = [] := by
  induction rs with
  | nil => rfl
  | cons r rs ih => rw [List.map_cons, heldShares_root, ih]

@[simp] theorem heldRoots_map_share (es : List EnvId) : heldRoots (es.map .share) = [] := by
  induction es with
  | nil => rfl
  | cons e es ih => rw [List.map_cons, heldRoots_share, ih]

@[simp] theorem heldShares_map_share (es : List EnvId) : heldShares (es.map .share) = es := by
  induction es with
  | nil => rfl
  | cons e es ih => rw [List.map_cons, heldShares_share, ih]

@[simp] theorem heldRoots_holdings (h : Handle) : heldRoots h.holdings = h.toList :=
  heldRoots_map_root _

@[simp] theorem heldShares_holdings (h : Handle) : heldShares h.holdings = [] :=
  heldShares_map_root _

@[simp] theorem heldRoots_value (v : Value Handle) : heldRoots v.holdings = v.anchors := by
  rw [Value.holdings, heldRoots_append, heldRoots_map_root, heldRoots_map_share, List.append_nil]

@[simp] theorem heldShares_value (v : Value Handle) :
    heldShares v.holdings = v.env?.toList := by
  rw [Value.holdings, heldShares_append, heldShares_map_root, heldShares_map_share,
    List.nil_append]

variable {held held'}

theorem heldRoots_perm (h : held.Perm held') : (heldRoots held).Perm (heldRoots held') :=
  h.filterMap _

theorem heldShares_perm (h : held.Perm held') : (heldShares held).Perm (heldShares held') :=
  h.filterMap _

theorem mem_heldRoots {r : Root} : r ∈ heldRoots held ↔ .root r ∈ held := by
  rw [heldRoots, List.mem_filterMap]
  constructor
  · rintro ⟨x, hx, he⟩
    cases x with
    | root s =>
        cases he
        exact hx
    | share e => cases he
  · exact fun h => ⟨.root r, h, rfl⟩

theorem mem_heldShares {e : EnvId} : e ∈ heldShares held ↔ .share e ∈ held := by
  rw [heldShares, List.mem_filterMap]
  constructor
  · rintro ⟨x, hx, he⟩
    cases x with
    | root r => cases he
    | share f =>
        cases he
        exact hx
  · exact fun h => ⟨.share e, h, rfl⟩

end Holdings

/-- The roots of one heap. -/
def rootsIn (i : HeapId) (rs : List Root) : List Root :=
  rs.filter fun r => r.cell.heap = i

@[simp] theorem rootsIn_append (i : HeapId) (rs rs' : List Root) :
    rootsIn i (rs ++ rs') = rootsIn i rs ++ rootsIn i rs' :=
  List.filter_append ..

theorem rootsIn_perm (i : HeapId) {rs rs' : List Root} (h : rs.Perm rs') :
    (rootsIn i rs).Perm (rootsIn i rs') :=
  h.filter _

theorem rootsIn_cons_self (r : Root) (rs : List Root) :
    rootsIn r.cell.heap (r :: rs) = r :: rootsIn r.cell.heap rs := by
  simp [rootsIn]

theorem rootsIn_cons_of_ne {i : HeapId} {r : Root} (h : r.cell.heap ≠ i) (rs : List Root) :
    rootsIn i (r :: rs) = rootsIn i rs := by
  simp [rootsIn, h]

theorem rootsIn_eq_self {i : HeapId} {rs : List Root} (h : ∀ r ∈ rs, r.cell.heap = i) :
    rootsIn i rs = rs :=
  List.filter_eq_self.mpr fun r hr => decide_eq_true (h r hr)

theorem rootsIn_eq_nil {i j : HeapId} {rs : List Root} (h : ∀ r ∈ rs, r.cell.heap = i)
    (hj : j ≠ i) : rootsIn j rs = [] :=
  List.filter_eq_nil_iff.mpr fun r hr => by simp [h r hr, Ne.symm hj]

/-- The write under way on one heap. -/
def writeIn (i : HeapId) (write : Option Writing) : Option Writing :=
  write.filter fun wr => wr.root.cell.heap = i

@[simp] theorem writeIn_none (i : HeapId) : writeIn i none = none := rfl

theorem writeIn_self (wr : Writing) : writeIn wr.root.cell.heap (some wr) = some wr :=
  Option.filter_some_pos (decide_eq_true rfl)

theorem writeIn_of_ne {i : HeapId} (wr : Writing) (h : wr.root.cell.heap ≠ i) :
    writeIn i (some wr) = none :=
  Option.filter_some_neg (by simpa using h)

/-- The shares of environments that the closures on a heap own. -/
def Heap.closures (h : Heap) : List EnvId :=
  h.cells.filterMap fun p => p.2.value.env?

theorem Environment.mem_roots {env : Environment} {r : Root} :
    r ∈ env.roots ↔ ∃ name : String, env.bindings[name]? = some (some r) := by
  rw [roots, List.mem_filterMap]
  constructor
  · rintro ⟨x, hx, rfl⟩
    exact mem_values_iff.mp hx
  · rintro ⟨name, hname⟩
    exact ⟨some r, mem_values_iff.mpr ⟨name, hname⟩, rfl⟩

namespace World

/-- The roots that bindings own. -/
def bound (w : World) : List Root :=
  w.envs.values.flatMap Environment.roots

/-- The shares of environments that closures own. -/
def closures (w : World) : List EnvId :=
  w.heaps.toList.flatMap Heap.closures

/-- The shares of environments that inner scopes own. -/
def parents (w : World) : List EnvId :=
  w.envs.values.filterMap Environment.parent

def ownersOf (w : World) (e : EnvId) : Nat :=
  ((w.envs[e]?).map Environment.owners).getD 0

/-- Everything in a world is owned as often as it is recorded to be, for given
holdings from outside and a write that may be under way. -/
structure Balanced (w : World) (held : List Holding) (write : Option Writing) : Prop where
  heap : ∀ i h, w.heap? i = some h →
    h.Balanced (rootsIn i (heldRoots held ++ w.bound)) (writeIn i write)
  home : ∀ r ∈ countedRoots (heldRoots held ++ w.bound) write,
    ∃ h, w.heap? r.cell.heap = some h
  cells : ∀ i h, w.heap? i = some h → ∀ c, h.Live c → c.heap = i ∧ c.number < w.nextCell
  scopes : ∀ e env, w.envs[e]? = some env →
    e < w.nextEnv ∧ (∀ p ∈ env.parent, p < e) ∧ 0 < env.owners
  owners : ∀ e, w.ownersOf e = (heldShares held ++ w.closures ++ w.parents).count e

theorem ownersOf_of_getElem? {w : World} {e : EnvId} {env : Environment}
    (h : w.envs[e]? = some env) : w.ownersOf e = env.owners := by
  simp [ownersOf, h]

theorem mem_heaps {w : World} {h : Heap} : h ∈ w.heaps.toList ↔ ∃ i, w.heap? i = some h := by
  simp only [List.mem_iff_getElem?, Array.getElem?_toList, heap?]

theorem mem_parents {w : World} {p : EnvId} :
    p ∈ w.parents ↔ ∃ (e : EnvId) (env : Environment), w.envs[e]? = some env ∧
      env.parent = some p := by
  rw [parents, List.mem_filterMap]
  constructor
  · rintro ⟨env, henv, hp⟩
    obtain ⟨e, he⟩ := mem_values_iff.mp henv
    exact ⟨e, env, he, hp⟩
  · rintro ⟨e, env, he, hp⟩
    exact ⟨env, mem_values_iff.mpr ⟨e, he⟩, hp⟩

theorem mem_bound {w : World} {r : Root} :
    r ∈ w.bound ↔ ∃ (e : EnvId) (env : Environment), w.envs[e]? = some env ∧ r ∈ env.roots := by
  rw [bound, List.mem_flatMap]
  constructor
  · rintro ⟨env, henv, hr⟩
    obtain ⟨e, he⟩ := mem_values_iff.mp henv
    exact ⟨e, env, he, hr⟩
  · rintro ⟨e, env, he, hr⟩
    exact ⟨env, mem_values_iff.mpr ⟨e, he⟩, hr⟩

namespace Balanced

variable {w : World} {held held' : List Holding} {write : Option Writing}

theorem perm (hb : w.Balanced held write) (hp : held.Perm held') : w.Balanced held' write where
  heap i h hi := (hb.heap i h hi).perm (rootsIn_perm i ((heldRoots_perm hp).append_right _))
  home r hr := hb.home r (((heldRoots_perm hp).symm.append_right _ |>.append_right _).mem_iff.mp hr)
  cells := hb.cells
  scopes := hb.scopes
  owners e := by
    rw [hb.owners]
    exact (((heldShares_perm hp).append_right _).append_right _).count_eq e

/-- An owned root targets a live cell. -/
theorem live_of_mem (hb : w.Balanced held write) {r : Root} (hr : r ∈ heldRoots held ++ w.bound) :
    ∃ h, w.heap? r.cell.heap = some h ∧ h.Live r.cell := by
  obtain ⟨h, hi⟩ := hb.home r (List.mem_append_left _ hr)
  refine ⟨h, hi, (hb.heap _ h hi).live ?_⟩
  exact List.mem_filter.mpr ⟨hr, decide_eq_true rfl⟩

theorem live (hb : w.Balanced held write) {r : Root} (hr : .root r ∈ held) :
    ∃ h, w.heap? r.cell.heap = some h ∧ h.Live r.cell :=
  hb.live_of_mem (List.mem_append_left _ (mem_heldRoots.mpr hr))

theorem env_of_count_pos (hb : w.Balanced held write) {e : EnvId}
    (h : 0 < (heldShares held ++ w.closures ++ w.parents).count e) :
    ∃ env, w.envs[e]? = some env := by
  cases he : w.envs[e]? with
  | none =>
      have := hb.owners e
      simp only [ownersOf, he, Option.map_none, Option.getD_none] at this
      omega
  | some env => exact ⟨env, rfl⟩

/-- An environment of which a share is owned exists. -/
theorem env_of_share (hb : w.Balanced held write) {e : EnvId} (h : .share e ∈ held) :
    ∃ env, w.envs[e]? = some env := by
  refine hb.env_of_count_pos (List.count_pos_iff.mpr ?_)
  exact List.mem_append_left _ (List.mem_append_left _ (mem_heldShares.mpr h))

theorem mem_closures (hb : w.Balanced held write) {i : HeapId} {h : Heap}
    (hi : w.heap? i = some h) {c : CellId} {cell : Cell} (hf : h.find? c = some cell) {e : EnvId}
    (he : cell.value.env? = some e) : e ∈ w.closures := by
  have hmem := (hb.heap i h hi).counted.find?_eq_some_iff.mp hf
  refine List.mem_flatMap.mpr ⟨h, mem_heaps.mpr ⟨i, hi⟩, ?_⟩
  exact List.mem_filterMap.mpr ⟨(c, cell), hmem, he⟩

theorem env_of_closure (hb : w.Balanced held write) {i : HeapId} {h : Heap}
    (hi : w.heap? i = some h) {c : CellId} {cell : Cell} (hf : h.find? c = some cell) {e : EnvId}
    (he : cell.value.env? = some e) : ∃ env, w.envs[e]? = some env := by
  refine hb.env_of_count_pos (List.count_pos_iff.mpr ?_)
  exact List.mem_append_left _ (List.mem_append_right _ (hb.mem_closures hi hf he))

theorem env_of_parent (hb : w.Balanced held write) {e p : EnvId} {env : Environment}
    (he : w.envs[e]? = some env) (hp : env.parent = some p) :
    ∃ env', w.envs[p]? = some env' := by
  refine hb.env_of_count_pos (List.count_pos_iff.mpr ?_)
  exact List.mem_append_right _ (mem_parents.mpr ⟨e, env, he, hp⟩)

end Balanced

end World

end HybridHeap
