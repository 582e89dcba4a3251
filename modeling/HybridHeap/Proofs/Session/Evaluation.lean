import HybridHeap.Proofs.Session.Cycles
import HybridHeap.Proofs.World.Traceless

/-!
Evaluation leaks nothing and disturbs nothing. Once its outcome is dropped, nothing that an
evaluation has allocated is alive, and what a script can reach is as it was before, also
where the script has made cycles.
-/

namespace HybridHeap

open Unmanaged (Store)

namespace Unmanaged.Session

/-- An evaluation whose outcome is not stored only adds to the store. -/
theorem grows_performEval {s : Unmanaged.Session} (hc : s.store.Closed)
    (hs : ∀ (name : String) (e : EnvId), s.scopes[name]? = some e → e < s.store.nextEnv)
    (i : HeapId) (scope : String) (expr : Expr) :
    s.store.Grows (s.performOp i (.eval scope expr none)).1.store := by
  have hgive : ∀ {t : Unmanaged.Session} {outcome : Except Failure Slot},
      s.store.Grows t.store → s.store.Grows (giveOutcome none (t, outcome)).1.store := by
    intro t outcome hg
    cases outcome with
    | ok h => exact hg
    | error f => exact hg
  rw [performOp, withScope]
  cases hn : s.scopes[scope]? with
  | none => exact .refl
  | some e => exact hgive (Store.extends_eval hc (hs scope e hn) i evaluationSteps expr).grows

end Unmanaged.Session

namespace Session

variable {s : Session}

theorem mem_of_owns {n : Node} (hn : s.Owns n) : n ∈ s.holdings.map Holding.node := by
  have hvalue : ∀ {name : String} {v : Value Handle} {x : Holding}, s.held[name]? = some v →
      x ∈ v.holdings → x ∈ s.holdings := by
    intro name v x hname hx
    refine List.mem_append_right _ (List.mem_append_left _ (List.mem_flatMap.mpr ⟨v, ?_, hx⟩))
    exact mem_values_iff.mpr ⟨name, hname⟩
  cases hn with
  | @register name h c hname hc =>
      obtain ⟨r, rfl, rfl⟩ := Option.map_eq_some_iff.mp hc
      refine List.mem_map.mpr ⟨.root r, List.mem_append_left _ ?_, rfl⟩
      exact List.mem_flatMap.mpr ⟨some r, mem_values_iff.mpr ⟨name, hname⟩, List.mem_cons_self⟩
  | @keptSlot name v h c hname hh hc =>
      obtain ⟨r, rfl, rfl⟩ := Option.map_eq_some_iff.mp hc
      refine List.mem_map.mpr ⟨.root r, hvalue hname (List.mem_append_left _ ?_), rfl⟩
      exact List.mem_map_of_mem (List.mem_filterMap.mpr ⟨some r, hh, rfl⟩)
  | @keptScope name v e hname he =>
      refine List.mem_map.mpr ⟨.share e, hvalue hname (List.mem_append_right _ ?_), rfl⟩
      exact List.mem_map_of_mem (Option.mem_toList.mpr he)
  | @scope name e hname =>
      refine List.mem_map.mpr ⟨.share e, List.mem_append_right _ (List.mem_append_right _ ?_), rfl⟩
      exact List.mem_flatMap.mpr ⟨e, mem_values_iff.mpr ⟨name, hname⟩, List.mem_cons_self⟩

/-- An outcome that is not stored changes the world only. -/
theorem giveOutcome_none (s : Session) (outcome : Except Failure Handle) :
    (giveOutcome none (s, outcome)).1 =
      { s with world := World.dropOutcome (s.world, outcome) } := by
  cases outcome <;> rfl

/-- The registers stay as they are, whether there is a scope to evaluate in or not. -/
theorem holdings_performEval (s : Session) (i : HeapId) (scope : String) (expr : Expr) :
    (s.performOp i (.eval scope expr none)).1.holdings = s.holdings := by
  rw [performOp, withScope]
  cases s.scopes[scope]? with
  | none => rfl
  | some e =>
      show (giveOutcome none (s.lift (s.world.eval i evaluationSteps e expr))).1.holdings = _
      rw [lift, giveOutcome_none]
      rfl

/-- Evaluation leaves no trace. A script that evaluates an expression in an environment, or
calls a procedure with arguments that it has obtained, and does not keep the outcome, has the
cells and the bindings that it had; and so has whoever evaluates or applies at any moment
of a run, with whatever is held at that moment. -/
structure EvaluationTraceless (s : Session) : Prop where
  evaluated : ∀ (i : HeapId) (scope : String) (expr : Expr),
    s.world.Traceless s.Owns (s.performOp i (.eval scope expr none)).1.world
  called : ∀ (i : HeapId) (of : String) (args : List Operand) (s₁ : Session) (hs : List Handle),
    s.resolveAll i [] args = (s₁, .ok hs) →
    s₁.world.Traceless s₁.Owns (s.performOp i (.call of args none)).1.world
  eval : ∀ (w : World) (held : List Holding) (env : EnvId),
    Moment.Reachable ⟨w, held, none⟩ → .share env ∈ held → ∀ (i : HeapId) (limit : Nat) (e : Expr),
    w.Traceless (· ∈ held.map Holding.node) (World.dropOutcome (w.eval i limit env e))
  apply : ∀ (w : World) (held : List Holding) (procedure : Handle) (args : List Handle),
    Moment.Reachable ⟨w, args.flatMap Handle.holdings ++ held, none⟩ → Owned held procedure →
    ∀ (i : HeapId) (limit : Nat),
    w.Traceless (· ∈ held.map Holding.node) (World.dropOutcome (w.apply i limit procedure args))

theorem traceless_performEval (hs : s.Reachable) (i : HeapId) (scope : String) (expr : Expr) :
    s.world.Traceless s.Owns (s.performOp i (.eval scope expr none)).1.world := by
  have hb : s.world.Balanced s.holdings none := hs.moment.balanced
  have hm : s.Mirrors [] s.world.snapshot := hs.moment.mirrored
  obtain ⟨st, hstore, hm'⟩ := hm.performOp i (.eval scope expr none)
  have hscopes : ∀ (name : String) (e : EnvId), s.scopes[name]? = some e →
      e < s.world.snapshot.nextEnv := by
    intro name e hn
    have hmem : Node.scope e ∈ s.holdings.map Holding.node := mem_of_owns (.scope hn)
    exact Nat.lt_of_not_le (hb.not_fresh _ hmem)
  have hgrows := Unmanaged.Session.grows_performEval (s := s.bare s.world.snapshot)
    hb.closed_snapshot hscopes i scope expr
  rw [hstore] at hgrows
  unfold Mirrors at hm'
  rw [holdings_performEval] at hm'
  exact (hb.traceless (List.Subset.refl _) hm' hgrows).mono fun _ => mem_of_owns

theorem traceless_performCall (hs : s.Reachable) (i : HeapId) (of : String)
    {args : List Operand} {s₁ : Session} {handles : List Handle}
    (hr : s.resolveAll i [] args = (s₁, .ok handles)) :
    s₁.world.Traceless s₁.Owns (s.performOp i (.call of args none)).1.world := by
  have hm : s.Mirrors ([].flatMap Handle.holdings ++ []) s.world.snapshot := hs.moment.mirrored
  have hyields := hm.resolveAll [] i args
  rw [hr] at hyields
  generalize (s.bare s.world.snapshot).resolveAll i _ args = out at hyields
  cases hyields with
  | ok hm' =>
      have happly := (Mirrored.reached hm'.mirrored).traceless_apply
        (s₁.owned_handle [] of) i evaluationSteps
      have hworld : (s.performOp i (.call of args none)).1.world =
          World.dropOutcome (s₁.world.apply i evaluationSteps (s₁.handle of) handles) := by
        rw [performOp, hr]
        exact congrArg Session.world (giveOutcome_none _ _)
      rw [hworld]
      exact happly.mono fun _ => mem_of_owns

theorem evaluation_traceless (hs : s.Reachable) : s.EvaluationTraceless where
  evaluated := traceless_performEval hs
  called i of _ _ _ hr := traceless_performCall hs i of hr
  eval _ _ _ hm he := hm.traceless_eval he
  apply _ _ _ _ hm hp := hm.traceless_apply hp

/-- A procedure that captures the scope of the call that made it. The three cells
that this takes are gone afterwards, and the one that was there stays. -/
theorem evaluation_traceless_closure :
    let s := (([.newScope "e" none, .allocate (.closure .sealed "e") false (some "c")] :
      List Op).foldl (fun s op => (s.performOp 1 op).1) (new []))
    let inner : Expr := .call (.lambda ["x"] none (.lambda [] none (.var "x"))) [.int 7]
    ((s.performOp 1 (.eval "e" (.call inner []) none)).1.world.heap? 1).map Heap.stats =
        some { counters := { allocations := 4, eagerFrees := 3 }, liveObjects := 1, roots := 1,
               capacity := 4096 } ∧
      s.EvaluationTraceless := by
  intro s inner
  refine ⟨?_, evaluation_traceless (.op (.op (.new _ _) 1 _) 1 _)⟩
  unfold s inner
  cbv

end Session

end HybridHeap
