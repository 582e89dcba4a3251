import HybridHeap.Heap.Basic

/-!
Marking. The cells reached but not yet scanned wait on a stack; a cell is
scanned when it is taken off the stack unmarked, and marked then.
-/

namespace HybridHeap

/-- Cells waiting to be scanned, topmost first, how many they are, and how many
were ever pushed. -/
structure MarkStack where
  cells : List CellId := []
  size : Nat := 0
  pushed : Nat := 0
  deriving Repr, DecidableEq, Inhabited

namespace MarkStack

def push (s : MarkStack) (c : CellId) : MarkStack :=
  { cells := c :: s.cells, size := s.size + 1, pushed := s.pushed + 1 }

def pushAll (s : MarkStack) (cs : List CellId) : MarkStack :=
  cs.foldl push s

def pop? (s : MarkStack) : Option (CellId × MarkStack) :=
  match s.cells with
  | [] => none
  | c :: cs => some (c, { s with cells := cs, size := s.size - 1 })

theorem length_pop? {s s' : MarkStack} {c : CellId} (h : s.pop? = some (c, s')) :
    s'.cells.length + 1 = s.cells.length := by
  unfold pop? at h
  split at h
  · cases h
  · rename_i hs
    cases h
    simp [hs]

end MarkStack

namespace Heap

/-- The cells that have no mark. -/
def unmarked (h : Heap) : Std.ExtTreeMap CellId (Linked CellId Cell) :=
  h.objects.entries.filter fun _ e => !e.item.marked

def setMark (h : Heap) (c : CellId) : Heap :=
  h.modifyCell c fun cell => { cell with marked := true }

theorem size_unmarked_setMark {h : Heap} {c : CellId} {cell : Cell}
    (hc : h.find? c = some cell) (hm : cell.marked = false) :
    (h.setMark c).unmarked.size < h.unmarked.size := by
  obtain ⟨e, he, rfl⟩ : ∃ e, h.objects.entries[c]? = some e ∧ e.item = cell := by
    simpa [find?, LinkedMap.find?, Option.map_eq_some_iff] using hc
  have hmem : c ∈ h.unmarked := by
    simp [Std.ExtTreeMap.mem_iff_isSome_getElem?, unmarked, he, hm]
  have heq : (h.setMark c).unmarked = h.unmarked.erase c := by
    apply Std.ExtTreeMap.ext_getElem?
    intro k
    simp only [unmarked, setMark, modifyCell, LinkedMap.modify,
      Std.ExtTreeMap.getElem?_filter', Std.ExtTreeMap.getElem?_modify,
      Std.ExtTreeMap.getElem?_erase]
    by_cases hk : c = k
    · subst hk
      simp [he]
    · simp [hk]
  rw [heq, ← size_erase_add_one hmem]
  exact Nat.lt_succ_self _

/-- Scan until the stack is empty. -/
def scan (h : Heap) (s : MarkStack) : Heap × MarkStack :=
  match _hs : s.pop? with
  | none => (h, s)
  | some (c, s') =>
    match _hc : h.find? c with
    | none => scan (h.fault (.absentCell c)) s'
    | some cell =>
      if _hm : cell.marked then
        scan h s'
      else
        scan (h.setMark c) (s'.pushAll cell.value.targets)
termination_by (h.unmarked.size, s.cells.length)
decreasing_by
  · have := MarkStack.length_pop? _hs
    exact Prod.Lex.right _ (by omega)
  · have := MarkStack.length_pop? _hs
    exact Prod.Lex.right _ (by omega)
  · exact Prod.Lex.left _ _ (size_unmarked_setMark _hc (by simpa using _hm))

/-- Scan from the stack, then from each queued reference in turn. -/
def scanQueued (h : Heap) (s : MarkStack) : List CellId → Heap × MarkStack
  | [] => h.scan s
  | c :: queued =>
    let (h, s) := h.scan s
    h.scanQueued (s.push c) queued

/-- The outcome of marking: the marked heap, the queued references, which count
as roots once and are to be given up after the sweep, and the number of pushes. -/
structure Marking where
  heap : Heap
  pending : List CellId
  traced : Nat

/-- Mark what the roots reach, the newest root pushed first. -/
def mark (h : Heap) : Marking :=
  let start := MarkStack.pushAll {} (h.roots.toList.map Prod.snd)
  let (marked, s) := { h with deferred := [] }.scanQueued start h.deferred
  { heap := if s.size = 0 then marked else marked.fault .markStackNotEmpty,
    pending := h.deferred,
    traced := s.pushed }

@[simp] theorem size_setMark (h : Heap) (c : CellId) :
    (h.setMark c).objects.size = h.objects.size :=
  size_modifyCell ..

theorem size_scan (h : Heap) (s : MarkStack) : (h.scan s).1.objects.size = h.objects.size := by
  fun_induction scan h s with
  | case1 => rfl
  | case2 h s c s' hs hc ih => exact ih
  | case3 h s c s' hs cell hc hm ih => exact ih
  | case4 h s c s' hs cell hc hm ih => exact ih.trans (size_setMark h c)

theorem size_scanQueued (h : Heap) (s : MarkStack) (queued : List CellId) :
    (h.scanQueued s queued).1.objects.size = h.objects.size := by
  induction queued generalizing h s with
  | nil => exact size_scan h s
  | cons c queued ih => exact (ih _ _).trans (size_scan h s)

@[simp] theorem size_mark (h : Heap) : h.mark.heap.objects.size = h.objects.size := by
  simp only [mark]
  split
  · exact size_scanQueued ..
  · exact size_scanQueued ..

end Heap

end HybridHeap
