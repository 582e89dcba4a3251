import HybridHeap.LinkedMap.Size
import HybridHeap.Value.Basic

/-!
A heap: its live cells and its roots, each from newest to oldest, the threshold
for collections, and the counters. A cell counts the references to it, from
handles, from slots of cells, and from values not yet placed.
-/

namespace HybridHeap

/-- Tuning of a heap: the live count above which the first collection runs, and
whether allocations and drops of roots check it. -/
structure Config where
  initialCapacity : Nat := 0x1000
  collectOnAllocate : Bool := true
  collectOnRelease : Bool := true
  deriving Repr, DecidableEq, Inhabited

/-- The largest number of references to one cell that users of a heap have to
stay within. -/
def maxRefCount : Nat := 0x7fffffff

inductive Phase
  | idle
  | marking
  | sweeping
  deriving Repr, DecidableEq, Inhabited

def Phase.label : Phase → String
  | idle => "Idle"
  | marking => "Marking"
  | sweeping => "Sweeping"

/-- Internal checks of a heap. A check that fails is put on record; the step
that failed it has no effect. -/
inductive Fault
  | countUnderflow (cell : CellId)
  | absentCell (cell : CellId)
  | link (fault : LinkFault)
  | markStackNotEmpty
  deriving Repr, DecidableEq

structure Cell where
  count : Nat
  marked : Bool
  value : Value Slot
  deriving Inhabited

/-- Totals over the lifetime of a heap: cells allocated, cells freed because
their count reached zero, collections completed, cells freed by sweeping. -/
structure Counters where
  allocations : Nat := 0
  eagerFrees : Nat := 0
  collections : Nat := 0
  swept : Nat := 0
  deriving Repr, DecidableEq, Inhabited

/-- `deferred` queues the references that writers displaced, oldest first, until
the end of the write. -/
structure Heap where
  config : Config
  objects : LinkedMap CellId Cell
  roots : LinkedMap Ticket CellId
  nextTicket : Ticket
  capacity : Nat
  counters : Counters
  phase : Phase
  deferred : List CellId
  faults : List Fault
  deriving Inhabited

/-- The counters of a heap together with its present sizes and threshold. -/
structure Stats where
  counters : Counters
  liveObjects : Nat
  roots : Nat
  capacity : Nat
  deriving Repr, DecidableEq, Inhabited

namespace Heap

def new (config : Config) : Heap :=
  { config, objects := .empty, roots := .empty, nextTicket := 0,
    capacity := config.initialCapacity, counters := {}, phase := .idle, deferred := [],
    faults := [] }

def stats (h : Heap) : Stats :=
  { counters := h.counters, liveObjects := h.objects.length, roots := h.roots.length,
    capacity := h.capacity }

def fault (h : Heap) (f : Fault) : Heap :=
  { h with faults := f :: h.faults }

def find? (h : Heap) (c : CellId) : Option Cell :=
  h.objects.find? c

/-- The value of a cell; a cell that is not on the heap reads as null. -/
def read (h : Heap) (c : CellId) : Value Slot :=
  match h.find? c with
  | some cell => cell.value
  | none => .null

def modifyCell (h : Heap) (c : CellId) (f : Cell → Cell) : Heap :=
  { h with objects := h.objects.modify c f }

/-- Count one more reference to a cell. -/
def retain (h : Heap) (c : CellId) : Heap :=
  if h.objects.contains c then
    h.modifyCell c fun cell => { cell with count := cell.count + 1 }
  else
    h.fault (.absentCell c)

/-- Count a new reference to a cell and enter it as the newest root. -/
def register (h : Heap) (c : CellId) : Heap × Root :=
  let h := h.retain c
  let root := { cell := c, ticket := h.nextTicket }
  match h.roots.pushFront h.nextTicket c with
  | .ok roots => ({ h with roots, nextTicket := h.nextTicket + 1 }, root)
  | .error f => ({ h.fault (.link f) with nextTicket := h.nextTicket + 1 }, root)

/-- Take an entry off the root list without touching its cell's count. -/
def unroot (h : Heap) (r : Root) : Heap :=
  match h.roots.remove r.ticket with
  | .ok roots => { h with roots }
  | .error f => h.fault (.link f)

def unrootAll (h : Heap) (rs : List Root) : Heap :=
  rs.foldl unroot h

@[simp] theorem objects_fault (h : Heap) (f : Fault) : (h.fault f).objects = h.objects := rfl

@[simp] theorem objects_unroot (h : Heap) (r : Root) : (h.unroot r).objects = h.objects := by
  unfold unroot
  split <;> rfl

@[simp] theorem objects_unrootAll (h : Heap) (rs : List Root) :
    (h.unrootAll rs).objects = h.objects := by
  induction rs generalizing h with
  | nil => rfl
  | cons r rs ih => exact (ih (h.unroot r)).trans (objects_unroot h r)

def setValue (h : Heap) (c : CellId) (v : Value Slot) : Heap :=
  h.modifyCell c fun cell => { cell with value := v }

@[simp] theorem size_modifyCell (h : Heap) (c : CellId) (f : Cell → Cell) :
    (h.modifyCell c f).objects.size = h.objects.size := by
  simp [modifyCell]

end Heap

/-- What a heap reports while it works: a cell freed because its count reached
zero, the threshold exceeded, a collection finished. -/
inductive Event
  | freed (cell : CellId)
  | triggered (live capacity : Nat)
  | collected (before after swept traced capacity : Nat)
  deriving Repr, DecidableEq

/-- A cell taken off its heap. Its value has no references left, but a closure's
environment has not been let go of yet. -/
structure Freed where
  cell : CellId
  value : Value Slot
  deriving Inhabited

/-- A heap together with the cells freed from it and the events reported since
some moment, both newest first. Payloads of freed cells are let go of later, because that may drop
handles of this very heap. -/
structure Reclamation where
  heap : Heap
  graveyard : List Freed := []
  events : List Event := []
  deriving Inhabited

namespace Reclamation

def map (r : Reclamation) (f : Heap → Heap) : Reclamation :=
  { r with heap := f r.heap }

def report (r : Reclamation) (e : Event) : Reclamation :=
  { r with events := e :: r.events }

/-- Live cells and freed cells together. No step of a reclamation adds to them,
which is what ends the destruction of whole worlds. -/
def weight (r : Reclamation) : Nat :=
  r.heap.objects.size + r.graveyard.length

/-- Move a cell from the heap to the graveyard and null its slots. -/
def bury (r : Reclamation) (c : CellId) (cell : Cell) : Except LinkFault Reclamation :=
  match r.heap.objects.remove c with
  | .ok objects =>
    .ok
      { r with
        heap := { r.heap with objects },
        graveyard := { cell := c, value := cell.value.nulled } :: r.graveyard }
  | .error f => .error f

theorem size_bury {r r' : Reclamation} {c : CellId} {cell : Cell}
    (h : r.bury c cell = .ok r') : r'.heap.objects.size + 1 = r.heap.objects.size := by
  unfold bury at h
  split at h
  · rename_i objects hr
    cases h
    exact LinkedMap.size_remove hr
  · cases h

theorem weight_bury {r r' : Reclamation} {c : CellId} {cell : Cell}
    (h : r.bury c cell = .ok r') : r'.weight = r.weight := by
  have hs := size_bury h
  unfold bury at h
  split at h
  · cases h
    simp only [weight, List.length_cons] at hs ⊢
    omega
  · cases h

@[simp] theorem weight_report (r : Reclamation) (e : Event) :
    (r.report e).weight = r.weight := rfl

theorem weight_map {r : Reclamation} {f : Heap → Heap}
    (h : (f r.heap).objects.size = r.heap.objects.size) : (r.map f).weight = r.weight := by
  simp [weight, map, h]

end Reclamation

end HybridHeap
