import HybridHeap.Proofs.Session.Moves
import HybridHeap.Proofs.World.History

/-!
The sessions that a script leads to. On the way nothing happens to the world but moves, and the
forgetting of events (`Session.Leads.lift`); so no cell comes back that is gone, and no fault is
forgotten, whether the operations succeed or fail.
-/

namespace HybridHeap

namespace Session

/-- What becomes of the world of a session. -/
def Precedes (s s' : Session) : Prop :=
  s.world.Precedes s'.world

variable {s s' : Session}

theorem moves_dropEverything (s : Session) : s.Moves .all s.dropEverything := by
  rw [Moves, dropEverything_world]
  exact s.world.moves_settle s.estate

theorem moves_collectEverything (s : Session) : s.Moves .all s.collectEverything := by
  have hcollected : ∀ (is : List HeapId) (w : World),
      World.Moves .all w (is.foldl World.collectNow w) := by
    intro is
    induction is with
    | nil => exact .refl
    | cons i is ih => exact fun w => (w.moves_collectNow trivial).trans (ih _)
  exact hcollected _ s.world

/-- The sessions that a script can reach from a given one. -/
inductive Leads (s : Session) : Session → Prop
  | refl : Leads s s
  | op {t : Session} (hl : Leads s t) (i : HeapId) (op : Op) : Leads s (t.performOp i op).1
  | forgetEvents {t : Session} (hl : Leads s t) :
      Leads s (t.onWorld fun w => { w with events := [] })
  | dropEverything {t : Session} (hl : Leads s t) : Leads s t.dropEverything
  | collectEverything {t : Session} (hl : Leads s t) : Leads s t.collectEverything

theorem Leads.reachable (hl : s.Leads s') (hs : s.Reachable) : s'.Reachable := by
  induction hl with
  | refl => exact hs
  | op _ i op ih => exact ih.op i op
  | forgetEvents _ ih => exact ih.forgetEvents
  | dropEverything _ ih => exact ih.dropEverything
  | collectEverything _ ih => exact ih.collectEverything

/-- What moves preserve, and the forgetting of events too, a script does. -/
theorem Leads.lift {R : World → World → Prop}
    (htrans : ∀ {w w' w''}, R w w' → R w' w'' → R w w'')
    (hmoves : ∀ {w w'}, World.Moves .all w w' → R w w')
    (hforget : ∀ w, R w { w with events := [] }) (hl : s.Leads s') : R s.world s'.world := by
  induction hl with
  | refl => exact hmoves (.refl s.world)
  | @op t _ i op ih =>
      have hop : World.Moves .all t.world (t.performOp i op).1.world :=
        t.moves_performOp i (fun _ _ => trivial) fun _ _ => trivial
      exact htrans ih (hmoves hop)
  | forgetEvents _ ih => exact htrans ih (hforget _)
  | @dropEverything t _ ih => exact htrans ih (hmoves t.moves_dropEverything)
  | @collectEverything t _ ih => exact htrans ih (hmoves t.moves_collectEverything)

/-- Over a whole run nothing comes back and no fault is forgotten. -/
theorem Leads.precedes (hl : s.Leads s') : s.Precedes s' :=
  hl.lift (R := World.Precedes) World.Precedes.trans World.Moves.precedes
    fun _ => .of_heaps rfl rfl

end Session

end HybridHeap
