import HybridHeap.Proofs.Mirror.Run

/-!
The sessions that scripts reach. Between two operations nothing is in hand, so that
everything in the world is owned by the registers; `Reachable.mirrors` says so, along
with a store that has done the same.
-/

namespace HybridHeap

theorem World.settle_nil (w : World) : w.settle [] = w := by
  rw [World.settle]

/-- Chores can be done one batch after the other. -/
theorem World.settle_append (w : World) (chores chores' : List Chore) :
    w.settle (chores ++ chores') = (w.settle chores).settle chores' := by
  fun_induction World.settle w chores with
  | case1 w => rfl
  | case2 w c rest ih => rw [List.cons_append, World.settle, ← List.append_assoc, ih]

theorem World.foldl_settle {α : Type} (chores : α → List Chore) (as : List α) (w : World) :
    as.foldl (fun w a => w.settle (chores a)) w = w.settle (as.flatMap chores) := by
  induction as generalizing w with
  | nil => rw [List.foldl_nil, List.flatMap_nil, World.settle_nil]
  | cons a as ih => rw [List.foldl_cons, ih, List.flatMap_cons, World.settle_append]

namespace Session

/-- The sessions that scripts reach between operations, and at their end when
everything is dropped and every heap collected. -/
inductive Reachable : Session → Prop
  | new (choices : List HeapChoice) (dropOrder : EnvId → DropOrder) :
      Reachable (new choices dropOrder)
  | op {s : Session} (hs : Reachable s) (i : HeapId) (op : Op) : Reachable (s.performOp i op).1
  | forgetEvents {s : Session} (hs : Reachable s) :
      Reachable (s.onWorld fun w => { w with events := [] })
  | dropEverything {s : Session} (hs : Reachable s) : Reachable s.dropEverything
  | collectEverything {s : Session} (hs : Reachable s) : Reachable s.collectEverything

/-- The chores of a script that drops everything: values kept off the heaps, then
registers, then scopes. -/
def estate (s : Session) : List Chore :=
  (s.held.values.flatMap fun v => v.anchors.map .dropAnchor ++ v.env?.toList.map .leave) ++
    ((s.registers.values.filterMap id).map .dropRoot ++
      s.scopes.values.flatMap fun e => [.leave e])

theorem dropEverything_world (s : Session) :
    s.dropEverything.world = s.world.settle s.estate := by
  rw [estate, World.settle_append, World.settle_append, ← World.foldl_settle,
    ← World.foldl_settle]
  rfl

theorem holdings_estate (s : Session) : (s.estate.map Chore.holding).Perm s.holdings := by
  have hkept : (s.held.values.flatMap fun v => v.anchors.map Chore.dropAnchor ++
      v.env?.toList.map Chore.leave).map Chore.holding =
        s.held.values.flatMap Value.holdings := by
    rw [List.map_flatMap]
    refine List.flatMap_congr fun v _ => ?_
    rw [List.map_append, List.map_map, List.map_map]
    rfl
  have hscopes : (s.scopes.values.flatMap fun e => [Chore.leave e]).map Chore.holding =
      s.scopes.values.flatMap fun e => [.share e] := List.map_flatMap ..
  rw [estate, List.map_append, List.map_append, hkept, hscopes, map_holding_dropRoot]
  exact List.perm_append_comm_assoc ..

theorem Mirrors.dropEverything {s : Session} {st : Unmanaged.Store} (hm : s.Mirrors [] st) :
    s.dropEverything.Mirrors [] st := by
  have hperm : s.holdings.Perm (s.estate.map Chore.holding ++ []) := by
    rw [List.append_nil]
    exact s.holdings_estate.symm
  have hsettled := (Mirrored.permute hm hperm).settle
  rw [← dropEverything_world] at hsettled
  exact hsettled

theorem Mirrors.collectEverything {s : Session} {st : Unmanaged.Store} (hm : s.Mirrors [] st) :
    s.collectEverything.Mirrors [] st := by
  have hcollected : ∀ (is : List HeapId) {w : World} {held : List Holding},
      Mirrored ⟨w, held, none⟩ st → Mirrored ⟨is.foldl World.collectNow w, held, none⟩ st := by
    intro is
    induction is with
    | nil => exact id
    | cons i is ih => exact fun hm => ih (hm.collectNow i)
  exact hcollected s.heaps.toList hm

namespace Reachable

variable {s : Session}

/-- Every session owns what its registers hold, and a store has done the same. -/
theorem mirrors (hs : s.Reachable) : ∃ st, s.Mirrors [] st := by
  induction hs with
  | new choices dropOrder =>
      obtain ⟨st, -, hm⟩ := mirrors_new choices dropOrder
      exact ⟨st, hm⟩
  | op _ i op ih =>
      obtain ⟨st, hm⟩ := ih
      obtain ⟨st', -, hm'⟩ := hm.performOp i op
      exact ⟨st', hm'⟩
  | forgetEvents _ ih =>
      obtain ⟨st, hm⟩ := ih
      exact ⟨st, hm.forgetEvents⟩
  | dropEverything _ ih =>
      obtain ⟨st, hm⟩ := ih
      exact ⟨st, hm.dropEverything⟩
  | collectEverything _ ih =>
      obtain ⟨st, hm⟩ := ih
      exact ⟨st, hm.collectEverything⟩

/-- The session after some operations on one heap. -/
theorem foldl (hs : s.Reachable) (i : HeapId) (ops : List Op) :
    (ops.foldl (fun s op => (s.performOp i op).1) s).Reachable := by
  induction ops generalizing s with
  | nil => exact hs
  | cons op ops ih => exact ih (hs.op i op)

/-- A session between operations is at a moment of a run. -/
theorem moment (hs : s.Reachable) : Moment.Reachable ⟨s.world, s.holdings, none⟩ := by
  obtain ⟨st, hm⟩ := hs.mirrors
  exact hm.reached

end Reachable

mutual

theorem Reachable.perform {s : Session} (hs : s.Reachable) (command : Command) :
    (s.perform command).1.Reachable := by
  cases command with
  | op index op =>
      rw [Session.perform]
      exact hs.op _ op
  | rounds rounds =>
      rw [Session.perform]
      exact hs.performRounds 0 _ rounds

theorem Reachable.performRounds {s : Session} (hs : s.Reachable) (number : Nat)
    (info : RoundsInfo) (rounds : List (List Command)) :
    (s.performRounds number info rounds).1.Reachable := by
  cases rounds with
  | nil =>
      rw [Session.performRounds]
      exact hs
  | cons round rounds =>
      rw [Session.performRounds]
      exact (hs.performRound info round).performRounds (number + 1) _ rounds

theorem Reachable.performRound {s : Session} (hs : s.Reachable) (info : RoundsInfo)
    (commands : List Command) : (s.performRound info commands).1.Reachable := by
  cases commands with
  | nil =>
      rw [Session.performRound]
      exact hs
  | cons command commands =>
      have hs' := hs.perform command
      rw [Session.performRound]
      generalize s.perform command = out at hs' ⊢
      obtain ⟨s', answer⟩ := out
      cases answer with
      | failure f => exact hs'.performRound _ commands
      | _ => exact hs'.performRound info commands

end

/-- A run goes from one reachable session to the next. -/
theorem Reachable.steps {s : Session} (hs : s.Reachable) (listings : Bool) (done : List Step)
    (commands : List Command) : (s.steps listings done commands).1.Reachable := by
  induction commands generalizing s done with
  | nil =>
      rw [Session.steps]
      exact hs
  | cons command commands ih =>
      rw [Session.steps]
      exact ih (hs.forgetEvents.perform command) _

end Session

end HybridHeap
