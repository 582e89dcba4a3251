import Std.Data.ExtTreeMap

/-!
Maps that remember insertion order. Every entry knows its newer and its older
neighbour, so an entry is taken out in the middle without walking the order,
and the map is listed from the newest entry to the oldest.
-/

namespace HybridHeap

/-- An entry together with the keys of its neighbours in the order. -/
structure Linked (κ α : Type) where
  newer : Option κ
  older : Option κ
  item : α
  deriving Repr, DecidableEq

/-- The ways in which an insertion or a removal can contradict the links. -/
inductive LinkFault
  | alreadyLinked
  | notLinked
  | headMismatch
  | lengthUnderflow
  deriving Repr, DecidableEq

/-- Entries by key, with the newest key and the number of entries. -/
structure LinkedMap (κ α : Type) [Ord κ] where
  entries : Std.ExtTreeMap κ (Linked κ α)
  newest : Option κ
  length : Nat

namespace LinkedMap

variable {κ α : Type} [Ord κ] [Std.TransOrd κ]

def empty : LinkedMap κ α :=
  { entries := ∅, newest := none, length := 0 }

instance : Inhabited (LinkedMap κ α) := ⟨empty⟩

def find? (m : LinkedMap κ α) (k : κ) : Option α :=
  m.entries[k]?.map Linked.item

def contains (m : LinkedMap κ α) (k : κ) : Bool :=
  m.entries.contains k

/-- The number of stored entries. It agrees with `length` whenever the links
are sound, and is the measure of every loop that takes entries out. -/
def size (m : LinkedMap κ α) : Nat :=
  m.entries.size

/-- Change the item under a key and keep its place in the order. -/
def modify (m : LinkedMap κ α) (k : κ) (f : α → α) : LinkedMap κ α :=
  { m with entries := m.entries.modify k fun e => { e with item := f e.item } }

/-- Change every item and keep the order. -/
def mapItems (m : LinkedMap κ α) (f : α → α) : LinkedMap κ α :=
  { m with entries := m.entries.map fun _ e => { e with item := f e.item } }

/-- Set the newer neighbour of an entry, if there is such an entry. -/
def relinkNewer (entries : Std.ExtTreeMap κ (Linked κ α)) (k newer : Option κ) :
    Std.ExtTreeMap κ (Linked κ α) :=
  match k with
  | none => entries
  | some k => entries.modify k fun e => { e with newer := newer }

/-- Set the older neighbour of an entry, if there is such an entry. -/
def relinkOlder (entries : Std.ExtTreeMap κ (Linked κ α)) (k older : Option κ) :
    Std.ExtTreeMap κ (Linked κ α) :=
  match k with
  | none => entries
  | some k => entries.modify k fun e => { e with older := older }

/-- Insert a new entry in front of the newest one. -/
def pushFront (m : LinkedMap κ α) (k : κ) (a : α) : Except LinkFault (LinkedMap κ α) :=
  if m.contains k then
    .error .alreadyLinked
  else
    .ok
      { entries := (relinkNewer m.entries m.newest (some k)).insert k
          { newer := none, older := m.newest, item := a },
        newest := some k,
        length := m.length + 1 }

/-- Take an entry out and join its neighbours. -/
def remove [DecidableEq κ] (m : LinkedMap κ α) (k : κ) :
    Except LinkFault (LinkedMap κ α) :=
  match m.entries[k]? with
  | none => .error .notLinked
  | some e =>
    if e.newer = none ∧ m.newest ≠ some k then
      .error .headMismatch
    else if m.length = 0 then
      .error .lengthUnderflow
    else
      .ok
        { entries := relinkNewer (relinkOlder (m.entries.erase k) e.newer e.older)
            e.older e.newer,
          newest := if e.newer = none then e.older else m.newest,
          length := m.length - 1 }

/-- Follow the older links for at most the given number of entries. -/
def walk (m : LinkedMap κ α) : Nat → Option κ → List (κ × α)
  | n + 1, some k =>
    match m.entries[k]? with
    | none => []
    | some e => (k, e.item) :: walk m n e.older
  | _, _ => []

/-- The entries from the newest to the oldest. -/
def toList (m : LinkedMap κ α) : List (κ × α) :=
  m.walk m.length m.newest

end LinkedMap

end HybridHeap
