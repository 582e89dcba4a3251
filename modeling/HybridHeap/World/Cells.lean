import HybridHeap.World.Settle

/-!
Cells of a world through handles: new roots, allocation, lists, reading and
writing. A handle or a value that is handed over is placed or dropped, also when
the operation fails.
-/

namespace HybridHeap

namespace World

/-- A new root for the target of a slot. -/
def root (w : World) : Slot → World × Handle
  | none => (w, none)
  | some c =>
    match w.heap? c.heap with
    | none => (w, none)
    | some h =>
      let (h, r) := h.register c
      (w.setHeap c.heap h, some r)

def clone (w : World) (h : Handle) : World × Handle :=
  w.root h.target

/-- New roots for the targets of several handles, in order. -/
def cloneAll (w : World) : List Handle → World × List Handle
  | [] => (w, [])
  | h :: hs =>
    let (w, h) := w.clone h
    let (w, hs) := w.cloneAll hs
    (w, h :: hs)

/-- Whether all references of a value stay inside one heap. -/
def ownsAll (i : HeapId) (v : Value Handle) : Bool :=
  v.anchors.all fun r => r.cell.heap = i

/-- Place a value in a new cell. -/
def allocate (w : World) (i : HeapId) (v : Value Handle) : World × Except Failure Handle :=
  if ownsAll i v then
    match w.heap? i with
    | none => (w.discard v, .ok none)
    | some h =>
      let (root, r) := h.place { heap := i, number := w.nextCell } v
      ({ w with nextCell := w.nextCell + 1 }.finish i r, .ok (some root))
  else
    (w.discard v, .error (.foreign .inNewCell))

/-- Put pairs in front of a tail, for items given from last to first. -/
def consAll (w : World) (i : HeapId) (tail : Handle) : List Handle → World × Except Failure Handle
  | [] => (w, .ok tail)
  | item :: earlier =>
    match w.allocate i (.pair item tail) with
    | (w, .ok h) => w.consAll i h earlier
    | (w, .error e) => (w.dropAll earlier.reverse, .error e)

/-- A chain of pairs whose last second is null; no items make a null handle. -/
def list (w : World) (i : HeapId) (items : List Handle) : World × Except Failure Handle :=
  w.consAll i none items.reverse

/-- A new root for the reference at a position. -/
def get (w : World) (h : Handle) (p : Position) : World × Except Failure Handle :=
  match h.target with
  | none => (w, .error (.access .nullHandle))
  | some c =>
    match (w.readCell c).get p with
    | .error e => (w, .error (.access e))
    | .ok s =>
      let (w, h) := w.root s
      (w, .ok h)

/-- The number of elements of a vector. -/
def vectorSize (w : World) (h : Handle) : Except Failure Nat :=
  match h.target with
  | none => .error (.access .nullHandle)
  | some c => (w.readCell c).vectorSize.mapError .access

/-- Put a value into an existing cell. A displaced closure lets go of its
environment while the new value's handles are still rooted. -/
def set (w : World) (h : Handle) (v : Value Handle) : World × Except Failure Unit :=
  match h.target with
  | none => (w.discard v, .error (.access .nullHandle))
  | some c =>
    if ownsAll c.heap v then
      let displaced := (w.readCell c).env?
      let swapped := w.modifyHeap c.heap fun h => h.swap c v
      let settled := swapped.settle (displaced.toList.map .leave)
      (settled.work c.heap fun h => h.finishWrite v.anchors, .ok ())
    else
      (w.discard v, .error (.foreign .inReplacement))

/-- Change one reference of a cell, to one that refers to the target. -/
def edit (w : World) (h target : Handle)
    (change : Heap → CellId → Slot → Except AccessError Reclamation) :
    World × Except Failure Unit :=
  match h.target with
  | none => (w, .error (.access .nullHandle))
  | some c =>
    if target.target.all fun t => t.heap = c.heap then
      match w.heap? c.heap with
      | none => (w, .error (.access .nullHandle))
      | some heap =>
        match change heap c target.target with
        | .error e => (w, .error (.access e))
        | .ok r => (w.finish c.heap r, .ok ())
    else
      (w, .error (.foreign .asTarget))

/-- Let the reference at a position refer to the target. -/
def write (w : World) (h : Handle) (p : Position) (target : Handle) :
    World × Except Failure Unit :=
  w.edit h target fun heap c t => heap.write c p t

/-- Add an element to a vector. -/
def push (w : World) (h target : Handle) : World × Except Failure Unit :=
  w.edit h target Heap.append

/-- Collect one heap regardless of its threshold. -/
def collectNow (w : World) (i : HeapId) : World :=
  w.work i Heap.collectNow

end World

end HybridHeap
