import Mathlib.Logic.Relation
import HybridHeap.Proofs.Heap.Acts
import HybridHeap.World.Evaluate

/-!
The moves that operations on a world are made of, in whatever state the world is: chores,
new roots, new cells, changes of scopes, work on one heap, and requests to collect. `w.Moves P w'`
says that `w'` comes out of `w` by moves that `P` permits; what every move preserves is so
preserved by every operation.
-/

namespace HybridHeap

open Relation (ReflTransGen)

/-- What moves may do to the heaps besides chores, new roots and new cells. -/
structure Permit where
  /-- The heaps that may be worked on, and in whose cells values may be stored. -/
  works : HeapId → Prop
  /-- The heaps that may be asked to collect. -/
  collects : HeapId → Prop

def Permit.all : Permit :=
  { works := fun _ => True, collects := fun _ => True }

def Permit.none : Permit :=
  { works := fun _ => False, collects := fun _ => False }

namespace World

/-- One move. -/
inductive Move (P : Permit) : World → World → Prop
  | chore (w : World) (c : Chore) : Move P w (w.doChore c).1
  | register {w : World} {i : HeapId} {h : Heap} (hi : w.heap? i = some h) (c : CellId) :
      Move P w (w.setHeap i (h.register c).1)
  | place {w : World} {i : HeapId} {h : Heap} {c : CellId} (hi : w.heap? i = some h)
      (hc : c = { heap := i, number := w.nextCell }) (v : Value Handle) :
      Move P w ({ w with nextCell := w.nextCell + 1 }.commit i (h.place c v).2).1
  | store {w : World} {i : HeapId} {h : Heap} (hd : P.works i) (hi : w.heap? i = some h)
      (c : CellId) (v : Value Handle) : Move P w (w.setHeap i (h.swap c v))
  | commit {w : World} {i : HeapId} {h : Heap} {r : Reclamation} (hd : P.works i)
      (hi : w.heap? i = some h) (hw : h.Work r) : Move P w (w.commit i r).1
  | collectNow {w : World} {i : HeapId} {h : Heap} (ha : P.collects i)
      (hi : w.heap? i = some h) : Move P w (w.commit i h.collectNow).1
  | scopes (w : World) (envs : Std.ExtTreeMap EnvId Environment) (nextEnv : EnvId) :
      Move P w { w with envs, nextEnv }

/-- A sequence of moves. -/
def Moves (P : Permit) : World → World → Prop :=
  ReflTransGen (Move P)

variable {P : Permit} {w w' w'' : World} {i : HeapId} {h : Heap}

namespace Moves

theorem refl (w : World) : Moves P w w :=
  ReflTransGen.refl

theorem single (hm : Move P w w') : Moves P w w' :=
  ReflTransGen.single hm

theorem trans (hm : Moves P w w') (hm' : Moves P w' w'') : Moves P w w'' :=
  ReflTransGen.trans hm hm'

/-- What every move preserves, a sequence of moves does. -/
theorem lift {R : World → World → Prop} (hrefl : ∀ w, R w w)
    (htrans : ∀ {w w' w''}, R w w' → R w' w'' → R w w'')
    (hstep : ∀ {w w'}, Move P w w' → R w w') (hm : Moves P w w') : R w w' := by
  induction hm with
  | refl => exact hrefl w
  | tail _ hlast ih => exact htrans ih (hstep hlast)

end Moves

theorem moves_settle (w : World) (chores : List Chore) : Moves P w (w.settle chores) := by
  fun_induction settle w chores with
  | case1 w => exact .refl w
  | case2 w c rest ih => exact (Moves.single (.chore w c)).trans ih

theorem moves_work (w : World) {f : Heap → Reclamation}
    (hf : ∀ h, w.heap? i = some h → Move P w (w.commit i (f h)).1) : Moves P w (w.work i f) := by
  unfold work
  split
  · exact .refl w
  · rename_i h hi
    exact (Moves.single (hf h hi)).trans (moves_settle _ _)

theorem moves_drop (w : World) (h : Handle) : Moves P w (w.drop h) :=
  w.moves_settle _

section Cells

theorem moves_root (w : World) (s : Slot) : Moves P w (w.root s).1 := by
  unfold root
  split
  · exact .refl w
  · rename_i c
    split
    · exact .refl w
    · rename_i h hi
      exact .single (.register hi c)

theorem moves_cloneAll (w : World) (hs : List Handle) : Moves P w (w.cloneAll hs).1 := by
  induction hs generalizing w with
  | nil => exact .refl w
  | cons h hs ih => exact (w.moves_root h.target).trans (ih _)

theorem moves_allocate (w : World) (i : HeapId) (v : Value Handle) :
    Moves P w (w.allocate i v).1 := by
  unfold allocate
  split
  · split
    · exact w.moves_settle _
    · rename_i h hi
      exact (Moves.single (.place hi rfl v)).trans (moves_settle _ _)
  · exact w.moves_settle _

theorem moves_consAll (w : World) (i : HeapId) (tail : Handle) (items : List Handle) :
    Moves P w (w.consAll i tail items).1 := by
  induction items generalizing w tail with
  | nil => exact .refl w
  | cons item earlier ih =>
      have hpair : Moves P w (w.allocate i (.pair item tail)).1 := w.moves_allocate i _
      rw [consAll]
      split
      · rename_i w' h he
        rw [he] at hpair
        exact hpair.trans (ih w' h)
      · rename_i w' f he
        rw [he] at hpair
        exact hpair.trans (w'.moves_settle _)

theorem moves_list (w : World) (i : HeapId) (items : List Handle) :
    Moves P w (w.list i items).1 :=
  w.moves_consAll i none items.reverse

theorem moves_get (w : World) (h : Handle) (p : Position) : Moves P w (w.get h p).1 := by
  unfold get
  split
  · exact .refl w
  · split
    · exact .refl w
    · exact w.moves_root _

theorem moves_set (w : World) {h : Handle} (hd : ∀ c ∈ h.target, P.works c.heap)
    (v : Value Handle) : Moves P w (w.set h v).1 := by
  unfold set
  split
  · exact w.moves_settle _
  · rename_i c hc
    split
    · have hstored : Moves P w (w.modifyHeap c.heap fun h => h.swap c v) := by
        unfold modifyHeap
        split
        · exact .refl w
        · rename_i heap hi
          exact .single (.store (hd c hc) hi c v)
      exact (hstored.trans (moves_settle _ _)).trans
        (moves_work _ fun _ hi => .commit (hd c hc) hi (.finishWrite v.anchors))
    · exact w.moves_settle _

theorem moves_edit (w : World) {h : Handle} (hd : ∀ c ∈ h.target, P.works c.heap) (target : Handle)
    {change : Heap → CellId → Slot → Except AccessError Reclamation}
    (hc : ∀ (h : Heap) c t r, change h c t = .ok r → h.Work r) :
    Moves P w (w.edit h target change).1 := by
  unfold edit
  split
  · exact .refl w
  · rename_i c hcell
    split
    · split
      · exact .refl w
      · rename_i heap hi
        split
        · exact .refl w
        · rename_i r hr
          exact (Moves.single (.commit (hd c hcell) hi (hc heap _ _ r hr))).trans
            (moves_settle _ _)
    · exact .refl w

theorem moves_write (w : World) {h : Handle} (hd : ∀ c ∈ h.target, P.works c.heap) (p : Position)
    (target : Handle) : Moves P w (w.write h p target).1 :=
  w.moves_edit hd target fun _ _ _ _ hw => .write hw

theorem moves_push (w : World) {h : Handle} (hd : ∀ c ∈ h.target, P.works c.heap)
    (target : Handle) : Moves P w (w.push h target).1 :=
  w.moves_edit hd target fun _ _ _ _ hw => .append hw

theorem moves_collectNow (w : World) (ha : P.collects i) : Moves P w (w.collectNow i) :=
  w.moves_work fun _ hi => .collectNow ha hi

end Cells

section Scopes

theorem moves_shareEnv (w : World) (e : EnvId) : Moves P w (w.shareEnv e) :=
  .single (.scopes w _ w.nextEnv)

theorem moves_newEnv (w : World) (parent : Option EnvId) : Moves P w (w.newEnv parent).1 := by
  cases parent <;> exact .single (.scopes w _ _)

theorem moves_rebind (w : World) (e : EnvId) (name : String) (h : Handle) :
    Moves P w (w.rebind e name h).1 :=
  .single (.scopes w _ w.nextEnv)

theorem moves_define (w : World) (e : EnvId) (name : String) (h : Handle) :
    Moves P w (w.define e name h) :=
  (w.moves_rebind e name h).trans (moves_drop _ _)

theorem moves_defineAll (w : World) (e : EnvId) (bindings : List (String × Handle)) :
    Moves P w (w.defineAll e bindings) := by
  induction bindings generalizing w with
  | nil => exact .refl w
  | cons b bindings ih => exact (w.moves_define e b.1 b.2).trans (ih _)

theorem moves_lookup (w : World) (e : EnvId) (name : String) :
    Moves P w (w.lookup e name).1 := by
  unfold lookup
  split
  · exact .refl w
  · exact w.moves_root _

theorem moves_assign (w : World) (e : EnvId) (name : String) (h : Handle) :
    Moves P w (w.assign e name h).1 := by
  unfold assign
  split
  · exact w.moves_drop h
  · have hcopy : Moves P w (w.root h.target).1 := w.moves_root h.target
    exact ((hcopy.trans (moves_rebind _ _ _ _)).trans (moves_drop _ _)).trans
      (moves_drop _ _)

theorem moves_bind (w : World) (i : HeapId) (params : List String) (rest : Option String)
    (args : List Handle) (parent : Option EnvId) :
    Moves P w (w.bind i params rest args parent).1 := by
  unfold bind
  split
  · exact w.moves_settle _
  · have hbound : Moves P w ((w.newEnv parent).1.defineAll (w.newEnv parent).2 (params.zip args)) :=
      (w.moves_newEnv parent).trans (moves_defineAll _ _ _)
    dsimp only
    split
    · exact hbound
    · have hlist := hbound.trans (moves_list _ i (args.drop params.length))
      split
      · rename_i w' h he
        rw [he] at hlist
        exact hlist.trans (w'.moves_define _ _ _)
      · rename_i w' f he
        rw [he] at hlist
        exact hlist.trans (w'.moves_settle _)

end Scopes

end World

end HybridHeap
