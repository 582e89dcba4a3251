import Mathlib.Data.List.Permutation
import HybridHeap.Proofs.Session.Reachable

/-!
The accounts of a session. Handles are in registers, in the bindings of scopes and in
the slots of values that are kept off the heaps; references are in the slots of live
cells. Counts and root lists are exactly what these add up to, whatever a script does.
-/

namespace HybridHeap

/-- Only one member of a list contributes. -/
theorem count_flatMap_of_getElem? {α β : Type} [BEq α] [LawfulBEq α] {l : List β}
    {f : β → List α} {i : Nat} {b : β} {a : α} (hi : l[i]? = some b)
    (hrest : ∀ j x, j ≠ i → l[j]? = some x → a ∉ f x) :
    (l.flatMap f).count a = (f b).count a := by
  induction l generalizing i with
  | nil => cases hi
  | cons x l ih =>
      rw [List.flatMap_cons, List.count_append]
      cases i with
      | zero =>
          rw [List.getElem?_cons_zero, Option.some.injEq] at hi
          subst hi
          have hzero : (l.flatMap f).count a = 0 := by
            apply List.count_eq_zero.mpr
            intro hm
            obtain ⟨y, hy, ha⟩ := List.mem_flatMap.mp hm
            obtain ⟨j, hj⟩ := List.mem_iff_getElem?.mp hy
            exact hrest (j + 1) y (Nat.succ_ne_zero j) hj ha
          omega
      | succ i =>
          have hzero : (f x).count a = 0 := List.count_eq_zero.mpr (hrest 0 x (by omega) rfl)
          have := ih hi fun j y hj hy => hrest (j + 1) y (by omega) hy
          omega

/-- Null references aside, a list has as many of each. -/
theorem count_filterMap_id {α : Type} [DecidableEq α] (l : List (Option α)) (a : α) :
    (l.filterMap id).count a = l.count (some a) := by
  induction l with
  | nil => rfl
  | cons o l ih =>
      rw [filterMap_id_cons, List.count_append, ih, List.count_cons, Nat.add_comm]
      cases o <;> simp [List.count_singleton]

theorem count_cell_rootsIn (c : CellId) (rs : List Root) :
    ((rootsIn c.heap rs).map Root.cell).count c = (rs.map Root.cell).count c := by
  induction rs with
  | nil => rfl
  | cons r rs ih =>
      by_cases hr : r.cell.heap = c.heap
      · rw [← hr] at ih ⊢
        rw [rootsIn_cons_self, List.map_cons, List.map_cons, List.count_cons, List.count_cons, ih]
      · rw [rootsIn_cons_of_ne hr, ih, List.map_cons, List.count_cons_of_ne]
        exact fun h => hr (congrArg CellId.heap h)

/-- Handles to a cell are roots of the cell. -/
theorem count_target (hs : List Handle) (c : CellId) :
    ((hs.filterMap id).map Root.cell).count c = (hs.map Handle.target).count (some c) := by
  rw [← count_filterMap_id, List.filterMap_map, List.map_filterMap]
  rfl

/-- The slots of all live cells. -/
def World.slots (w : World) : List Slot :=
  w.heaps.toList.flatMap fun h => h.cells.flatMap fun p => p.2.value.children

/-- A live cell with at least one reference. -/
def World.Referred (w : World) (c : CellId) : Prop :=
  ∃ h cell, w.heap? c.heap = some h ∧ h.find? c = some cell ∧ 1 ≤ cell.count

namespace World.Balanced

variable {w : World} {held : List Holding} {write : Option Writing}

theorem referred_of_live (hb : w.Balanced held write) {c : CellId} {h : Heap}
    (hi : w.heap? c.heap = some h) (hl : h.Live c) : w.Referred c := by
  obtain ⟨cell, hf⟩ := hl
  exact ⟨h, cell, hi, hf, (hb.heap _ h hi).counted.positive c cell hf⟩

/-- Slots refer to cells of the same heap only. -/
theorem live_of_slot (hb : w.Balanced held write) {i : HeapId} {h : Heap}
    (hi : w.heap? i = some h) {c : CellId} (hc : c ∈ slotTargets h.cells) :
    h.Live c ∧ c.heap = i := by
  have hl := (hb.heap i h hi).counted.live_of_slot hc
  exact ⟨hl, (hb.cells i h hi c hl).1⟩

/-- What a slot of a live cell refers to is alive. -/
theorem referred_of_slot (hb : w.Balanced held write) {c : CellId} (hc : some c ∈ w.slots) :
    w.Referred c := by
  obtain ⟨h, hh, hm⟩ := List.mem_flatMap.mp hc
  obtain ⟨p, hp, hs⟩ := List.mem_flatMap.mp hm
  obtain ⟨i, hi⟩ := mem_heaps.mp hh
  have htarget : c ∈ slotTargets h.cells :=
    mem_slotTargets.mpr ⟨p, hp, List.mem_filterMap.mpr ⟨some c, hs, rfl⟩⟩
  obtain ⟨hl, rfl⟩ := hb.live_of_slot hi htarget
  exact hb.referred_of_live hi hl

theorem count_slots (hb : w.Balanced held write) {c : CellId} {h : Heap}
    (hi : w.heap? c.heap = some h) :
    w.slots.count (some c) = (slotTargets h.cells).count c := by
  have hslots : ∀ h : Heap, (h.cells.flatMap fun p => p.2.value.children).count (some c) =
      (slotTargets h.cells).count c := by
    intro h
    rw [← count_filterMap_id, List.filterMap_flatMap]
    rfl
  have hi' : w.heaps.toList[c.heap]? = some h := by
    rwa [Array.getElem?_toList]
  rw [← hslots]
  -- no other heap has a slot that refers to the cell
  apply count_flatMap_of_getElem? (f := fun h => h.cells.flatMap fun p => p.2.value.children) hi'
  intro j k hj hk hm
  have hk' : w.heap? j = some k := by
    rwa [Array.getElem?_toList] at hk
  rw [← List.count_pos_iff, hslots, List.count_pos_iff] at hm
  exact hj (hb.live_of_slot hk' hm).2.symm

end World.Balanced

namespace Session

/-- The handles in registers and in the bindings of scopes. -/
def handles (s : Session) : List Handle :=
  s.registers.values ++ s.world.envs.values.flatMap fun env => env.bindings.values

/-- The handles in the slots of values that are kept off the heaps. -/
def keptHandles (s : Session) : List Handle :=
  s.held.values.flatMap Value.children

/-- The roots of all handles. -/
def owners (s : Session) : List Root :=
  (s.handles ++ s.keptHandles).filterMap id

/-- What holds between the operations of a script: every cell is counted as often as
handles and slots refer to it, the root list of a heap has one entry for each handle that
is not null, and whatever is referred to is alive. -/
structure Accounted (s : Session) : Prop where
  counts : ∀ i h, s.world.heap? i = some h → ∀ c cell, h.find? c = some cell →
    cell.count = (s.handles.map Handle.target).count (some c) + s.world.slots.count (some c) +
      (s.keptHandles.map Handle.target).count (some c)
  roots : ∀ i h, s.world.heap? i = some h →
    h.roots.toList.Perm ((rootsIn i s.owners).map Root.entry) ∧
      (h.roots.toList.map Prod.fst).Nodup
  handles : ∀ x ∈ s.handles ++ s.keptHandles, ∀ c ∈ x.target, s.world.Referred c
  slots : ∀ x ∈ s.world.slots, ∀ c ∈ x, s.world.Referred c
  entries : ∀ i h, s.world.heap? i = some h → ∀ p ∈ h.roots.toList, s.world.Referred p.2

/-- What the registers and the bindings own are the roots of all handles. -/
theorem owners_perm (s : Session) : (heldRoots s.holdings ++ s.world.bound).Perm s.owners := by
  have hregisters : heldRoots (s.registers.values.flatMap Handle.holdings) =
      s.registers.values.filterMap id := by
    rw [heldRoots, List.filterMap_flatMap, List.filterMap_eq_flatMap_toList]
    exact List.flatMap_congr fun h _ => heldRoots_holdings h
  have hkept : heldRoots (s.held.values.flatMap Value.holdings) =
      s.keptHandles.filterMap id := by
    rw [heldRoots, List.filterMap_flatMap, keptHandles, List.filterMap_flatMap]
    exact List.flatMap_congr fun v _ => heldRoots_value v
  have hscopes : heldRoots (s.scopes.values.flatMap fun e => [.share e]) = [] := by
    rw [heldRoots, List.filterMap_flatMap, List.flatMap_eq_nil_iff]
    exact fun e _ => rfl
  have hbound : s.world.bound =
      (s.world.envs.values.flatMap fun env => env.bindings.values).filterMap id := by
    rw [World.bound, List.filterMap_flatMap]
    rfl
  rw [holdings, heldRoots_append, heldRoots_append, hregisters, hkept, hscopes, List.append_nil,
    owners, handles, List.filterMap_append, List.filterMap_append, ← hbound, List.append_assoc,
    List.append_assoc]
  exact List.perm_append_comm.append_left _

/-- The accounts of every session that a script can reach are exact. -/
theorem accounts_exact {s : Session} (hs : s.Reachable) : s.Accounted := by
  have hb : s.world.Balanced s.holdings none := hs.moment.balanced
  have hp := s.owners_perm
  have howned : ∀ r ∈ s.owners, s.world.Referred r.cell := by
    intro r hr
    obtain ⟨h, hi, hl⟩ := hb.live_of_mem (hp.mem_iff.mpr hr)
    exact hb.referred_of_live hi hl
  have hentries : ∀ i h, s.world.heap? i = some h →
      h.roots.toList.Perm ((rootsIn i s.owners).map Root.entry) := by
    intro i h hi
    have hroots := (hb.heap i h hi).listed.roots
    rw [writeIn_none, listedRoots_none] at hroots
    exact hroots.trans ((rootsIn_perm i hp).map _)
  constructor
  · intro i h hi c cell hf
    obtain ⟨rfl, -⟩ := hb.cells i h hi c ⟨cell, hf⟩
    -- between operations no write is under way and the queue is empty
    have hheap := hb.heap c.heap h hi
    have hcount := hheap.counted.count c
    rw [Heap.countOf_of_find? hf, hheap.deferred rfl, List.append_nil, writeIn_none,
      countedRoots_none, count_cell_rootsIn, (hp.map Root.cell).count_eq, owners, count_target,
      List.map_append, List.count_append, ← hb.count_slots hi] at hcount
    omega
  · intro i h hi
    exact ⟨hentries i h hi, (hb.heap i h hi).listed.sound.nodup⟩
  · intro x hx c hc
    obtain ⟨r, hr, rfl⟩ := Option.map_eq_some_iff.mp hc
    exact howned r (List.mem_filterMap.mpr ⟨x, hx, hr⟩)
  · rintro x hx c rfl
    exact hb.referred_of_slot hx
  · intro i h hi p hq
    obtain ⟨r, hr, rfl⟩ := List.mem_map.mp ((hentries i h hi).mem_iff.mp hq)
    exact howned r (List.mem_filter.mp hr).1

/-- A pair that a register, a binding, a slot and a value off the heaps refer to. The binding
is in the environment of a closure, and the slot in another pair. -/
def spread : Session :=
  let code := Code.lambda { params := ["x"], rest := none, body := .lambda [] none (.var "x") }
  let ops : List Op :=
    [.newScope "e" none,
      .allocate (.closure code "e") false (some "f"),
      .dropScope "e",
      .allocate (.pair .null .null) false (some "p"),
      .call "f" [.copy "p"] (some "c"),
      .drop "f",
      .allocate (.pair (.copy "p") .null) false (some "q"),
      .hold "v" (.pair (.copy "p") (.copy "q"))]
  ops.foldl (fun s op => (s.performOp 1 op).1) (new [])

/-- The pair is counted four times, for two handles, a slot and a handle off the heaps. Six
handles are on the root list. -/
theorem accounts_exact_spread :
    (spread.world.heap? 1).map (fun h =>
        (h.cells.map fun p => (p.1.number, p.2.count), h.roots.toList.length)) =
      some ([(3, 2), (2, 1), (1, 4)], 6) ∧
      spread.handles.map (fun x => x.target.map CellId.number) =
        [some 2, some 1, some 3, some 1] ∧
      spread.world.slots.map (Option.map CellId.number) = [some 1, none, none, none] ∧
      spread.keptHandles.map (fun x => x.target.map CellId.number) = [some 1, some 3] ∧
      spread.Accounted := by
  refine ⟨?_, ?_, ?_, ?_, accounts_exact (.foldl (.new _ _) 1 _)⟩
  · cbv
  · cbv
  · cbv
  · cbv

end Session

end HybridHeap
