import HybridHeap.Proofs.Mirror.Scopes

/-!
Evaluation, in a world and in a store. An evaluation under way owns what its task and
its frames own. The scope that an expression is evaluated in is owned by whoever asked
for the evaluation or by the frame that will leave the scope, and the procedure that is
being applied by the frame that will let go of it.
-/

namespace HybridHeap

open Unmanaged (Store)

namespace Mirrored

variable {w : World} {st : Store} {held : List Holding} {i : HeapId}

/-- The outcome of an access that is allowed to fail. -/
theorem getOrNull {h : Handle} (hm : Mirrored ⟨w, held, none⟩ st) (ho : Owned held h)
    (p : Position) :
    ObtainedHandle held
      (match w.get h p with
        | (w, .ok h) => (w, .ok h)
        | (w, .error _) => (w, .ok none))
      (st, .ok ((st.get h.target p).toOption.getD none)) := by
  have hget := hm.get ho p
  generalize w.get h p = out at hget ⊢
  generalize st.get h.target p = out' at hget ⊢
  cases hget with
  | ok hm' => exact .ok hm'
  | error hm' => exact .ok (a := none) hm'

/-- The same numbers are added up. -/
theorem sum_eq (hm : Mirrored ⟨w, held, none⟩ st) {args : List Handle}
    (ho : ∀ h ∈ args, Owned held h) :
    (args.map Handle.target).foldl
        (fun sum s =>
          match st.read s with
          | .scalar (.integer n) => sum + n
          | _ => sum)
        (0 : Int64) =
      args.foldl
        (fun sum h =>
          match w.read h with
          | .scalar (.integer n) => sum + n
          | _ => sum)
        0 := by
  rw [List.foldl_map]
  apply List.foldl_ext _ _ 0
  intro sum h hh
  rw [hm.read (ho h hh)]

theorem callPrimitive (hm : Mirrored ⟨w, held, none⟩ st) (i : HeapId) (p : Primitive)
    {args : List Handle} (ho : ∀ h ∈ args, Owned held h) :
    ObtainedHandle held (w.callPrimitive i p args)
      (st.callPrimitive i p (args.map Handle.target)) := by
  have harg : ∀ n, Owned held (args.getD n none) := by
    intro n
    rw [List.getD_eq_getElem?_getD]
    cases hn : args[n]? with
    | none => exact owned_none held
    | some h => exact ho h (List.mem_of_getElem? hn)
  have htarget : ∀ n, (args.map Handle.target).getD n none = (args.getD n none).target := by
    intro n
    rw [List.getD_eq_getElem?_getD, List.getD_eq_getElem?_getD, List.getElem?_map]
    cases args[n]? <;> rfl
  cases p with
  | nothing => exact .ok (a := none) hm
  | identity =>
      obtain ⟨hsame, hm'⟩ := hm.clone (harg 0)
      simp only [World.callPrimitive, Store.callPrimitive, htarget, ← hsame]
      exact .ok hm'
  | add =>
      have hstore : st.callPrimitive i .add (args.map Handle.target) = _ :=
        congrArg (fun n => st.allocate i (.integer n)) (hm.sum_eq ho)
      rw [hstore]
      exact Mirrored.allocate (v := .integer _) hm i
  | cons =>
      obtain ⟨hfirst, hm₁⟩ := hm.clone (harg 0)
      obtain ⟨hsecond, hm₂⟩ := hm₁.clone ((harg 1).mono fun _ => List.mem_append_right _)
      simp only [World.callPrimitive, Store.callPrimitive, htarget, ← hfirst, ← hsecond]
      refine Mirrored.allocate (hm₂.permute ?_) i
      rw [holdings_pair, ← List.append_assoc]
      exact List.perm_append_comm.append_right _
  | car =>
      simp only [World.callPrimitive, Store.callPrimitive, htarget]
      exact hm.getOrNull (harg 0) .first
  | cdr =>
      simp only [World.callPrimitive, Store.callPrimitive, htarget]
      exact hm.getOrNull (harg 0) .second
  | list =>
      obtain ⟨hsame, hm'⟩ := hm.cloneAll ho
      simp only [World.callPrimitive, Store.callPrimitive, ← hsame]
      exact hm'.list i
  | vector =>
      obtain ⟨hsame, hm'⟩ := hm.cloneAll ho
      simp only [World.callPrimitive, Store.callPrimitive, ← hsame, ← placed_vector]
      refine Mirrored.allocate ?_ i
      rw [holdings_vector]
      exact hm'
  | gc => exact .ok (a := none) (hm.collectNow i)

end Mirrored

namespace Frame

def holdings : Frame → List Holding
  | operator .. => []
  | argument _ procedure done _ => procedure.holdings ++ done.flatMap Handle.holdings
  | release procedure => procedure.holdings
  | leave scope => [.share scope]

def bare : Frame → Unmanaged.Frame
  | operator env args => .operator env args
  | argument env procedure done rest =>
    .argument env procedure.target (done.map Handle.target) rest
  | release _ => .back
  | leave _ => .back

/-- The scope in which a frame goes on to evaluate. -/
def scope? : Frame → Option EnvId
  | operator env _ => some env
  | argument env .. => some env
  | release _ => none
  | leave _ => none

end Frame

namespace Task

def holdings : Task → List Holding
  | eval .. => []
  | apply _ args => args.flatMap Handle.holdings
  | finish (.ok h) => h.holdings
  | finish (.error _) => []

def bare : Task → Unmanaged.Task
  | eval env e => .eval env e
  | apply procedure args => .apply procedure.target (args.map Handle.target)
  | finish outcome => .finish (outcome.map Handle.target)

/-- What a task only looks at is owned by others. -/
def Supported (held : List Holding) : Task → Prop
  | eval env _ => .share env ∈ held
  | apply procedure _ => Owned held procedure
  | finish _ => True

end Task

/-- What frames own, that of the innermost in front. -/
def stackHoldings (frames : List Frame) : List Holding :=
  frames.flatMap Frame.holdings

/-- The scope of each frame is owned by what lies below it. -/
inductive Stacked (held : List Holding) : List Frame → Prop
  | nil : Stacked held []
  | cons {frame : Frame} {frames : List Frame}
      (hs : ∀ e ∈ frame.scope?, .share e ∈ stackHoldings frames ++ held)
      (hf : Stacked held frames) : Stacked held (frame :: frames)

namespace Evaluation

/-- The evaluation as it goes on in a store. -/
def bare (s : Evaluation) (st : Store) : Unmanaged.Evaluation :=
  { store := st, task := s.task.bare, frames := s.frames.map Frame.bare }

/-- An evaluation in a world that a store mirrors. -/
structure Mirrors (s : Evaluation) (held : List Holding) (st : Store) : Prop where
  mirrored : Mirrored ⟨s.world, s.task.holdings ++ (stackHoldings s.frames ++ held), none⟩ st
  supported : s.task.Supported (stackHoldings s.frames ++ held)
  stacked : Stacked held s.frames

/-- The steps that come next in the world and in the store. -/
def Continues (held : List Holding) (s : Evaluation) (t : Unmanaged.Evaluation) : Prop :=
  ∃ st, t = s.bare st ∧ s.Mirrors held st

variable {w : World} {st : Store} {held : List Holding} {frames : List Frame} {i : HeapId}

/-- An outcome is given to the frame around it. -/
theorem continues_finish {out : World × Except Failure Handle}
    {out' : Store × Except Failure Slot}
    (ho : ObtainedHandle (stackHoldings frames ++ held) out out') (hs : Stacked held frames) :
    Continues held { world := out.1, task := .finish out.2, frames }
      { store := out'.1, task := .finish out'.2, frames := frames.map Frame.bare } := by
  cases ho with
  | ok hm => exact ⟨_, rfl, hm, trivial, hs⟩
  | error hm => exact ⟨_, rfl, hm, trivial, hs⟩

theorem continues_eval (hm : Mirrored ⟨w, stackHoldings frames ++ held, none⟩ st) {env : EnvId}
    (he : .share env ∈ stackHoldings frames ++ held) (hs : Stacked held frames) (i : HeapId)
    (e : Expr) :
    Continues held (stepEval i w env e frames)
      (Unmanaged.Evaluation.stepEval i st env e (frames.map Frame.bare)) := by
  have henv := hm.balanced.env_of_share he
  cases e with
  | int n =>
      have hvalue : Mirrored ⟨w, (Value.integer n).holdings ++ (stackHoldings frames ++ held), none⟩
          st := hm
      exact continues_finish (hvalue.allocate i) hs
  | var name =>
      obtain ⟨hsame, hm'⟩ := hm.lookup name henv
      simp only [stepEval, Unmanaged.Evaluation.stepEval, ← hsame]
      generalize w.lookup env name = out at hm' ⊢
      obtain ⟨w', found⟩ := out
      cases found with
      | none => exact ⟨st, rfl, hm', trivial, hs⟩
      | some h => exact ⟨st, rfl, hm', trivial, hs⟩
  | lambda params rest body =>
      have hvalue : Mirrored ⟨w.shareEnv env,
          (Value.closure (.lambda { params, rest, body }) env).holdings ++
            (stackHoldings frames ++ held), none⟩ st := hm.shareEnv henv
      exact continues_finish (hvalue.allocate i) hs
  | call callee args =>
      refine ⟨st, rfl, hm, he, .cons (fun d hd => ?_) hs⟩
      cases hd
      exact he

/-- A procedure whose cell cannot be applied. -/
theorem continues_notCallable {args : List Handle}
    (hm : Mirrored ⟨w, args.flatMap Handle.holdings ++ (stackHoldings frames ++ held), none⟩ st)
    (hs : Stacked held frames) (kind : Kind) :
    Continues held
      { world := w.dropAll args, task := .finish (.error (.notCallable kind)), frames }
      { store := st, task := .finish (.error (.notCallable kind)),
        frames := frames.map Frame.bare } :=
  ⟨st, rfl, hm.dropAll, trivial, hs⟩

theorem continues_apply {procedure : Handle} {args : List Handle}
    (hm : Mirrored ⟨w, args.flatMap Handle.holdings ++ (stackHoldings frames ++ held), none⟩ st)
    (hp : Owned (stackHoldings frames ++ held) procedure) (hs : Stacked held frames)
    (i : HeapId) :
    Continues held (stepApply i w procedure args frames)
      (Unmanaged.Evaluation.stepApply i st procedure.target (args.map Handle.target)
        (frames.map Frame.bare)) := by
  have hp' := hp.mono fun _ => List.mem_append_right (args.flatMap Handle.holdings)
  simp only [stepApply, Unmanaged.Evaluation.stepApply, ← hm.read hp']
  cases hv : w.read procedure with
  | scalar v =>
      cases v with
      | primitive p =>
          -- the primitive looks at the arguments, which are dropped after it
          have ho := hm.callPrimitive i p fun h hh =>
            owned_of_mem hh (stackHoldings frames ++ held)
          dsimp only
          generalize w.callPrimitive i p args = out at ho ⊢
          generalize st.callPrimitive i p (args.map Handle.target) = out' at ho ⊢
          cases ho with
          | ok hm' =>
              exact ⟨_, rfl, Mirrored.dropAll (hm'.permute (List.perm_append_comm_assoc ..)),
                trivial, hs⟩
          | error hm' => exact ⟨_, rfl, hm'.dropAll, trivial, hs⟩
      | _ => exact continues_notCallable hm hs _
  | pair a b => exact continues_notCallable hm hs _
  | vector es => exact continues_notCallable hm hs _
  | closure code env =>
      cases code with
      | lambda l =>
          have henv : ∀ p ∈ some env, ∃ e, w.envs[p]? = some e := by
            rintro p ⟨⟩
            have hread : (w.read procedure).env? = some env := by
              rw [hv]
              rfl
            exact hm.env_of_read (hm.live_of_owned hp') env hread
          have ho := hm.bind i l.params l.rest henv
          dsimp only
          generalize w.bind i l.params l.rest args (some env) = out at ho ⊢
          generalize st.bind i l.params l.rest (args.map Handle.target) (some env) = out' at ho ⊢
          cases ho with
          | ok hm' =>
              refine ⟨_, rfl, hm', List.mem_append_left _ List.mem_cons_self, .cons ?_ hs⟩
              exact fun d hd => by cases hd
          | error hm' => exact ⟨_, rfl, hm', trivial, hs⟩
      | _ => exact continues_notCallable hm hs _

/-- The next argument, or the call. -/
theorem continues_proceed {env : EnvId} {procedure : Handle} {done : List Handle}
    (hm : Mirrored ⟨w, (procedure.holdings ++ done.flatMap Handle.holdings) ++
      (stackHoldings frames ++ held), none⟩ st)
    (he : .share env ∈ stackHoldings frames ++ held) (hs : Stacked held frames)
    (rest : List Expr) :
    Continues held (proceed w env procedure done rest frames)
      (Unmanaged.Evaluation.proceed st env procedure.target (done.map Handle.target) rest
        (frames.map Frame.bare)) := by
  have hscope : ∀ e, Holding.share e ∈ stackHoldings frames ++ held →
      ∀ frame : Frame, .share e ∈ stackHoldings (frame :: frames) ++ held := by
    intro e hm frame
    rw [stackHoldings, List.flatMap_cons, List.append_assoc]
    exact List.mem_append_right _ hm
  cases rest with
  | nil =>
      simp only [proceed, Unmanaged.Evaluation.proceed, ← List.map_reverse]
      refine ⟨st, rfl, hm.permute ?_, ?_, .cons (fun d hd => by cases hd) hs⟩
      · show List.Perm _ (done.reverse.flatMap Handle.holdings ++
          ((procedure.holdings ++ stackHoldings frames) ++ held))
        rw [List.append_assoc, List.append_assoc]
        apply (List.perm_append_comm_assoc ..).trans
        exact (holdings_reverse_perm done).symm.append_right _
      · show Owned ((procedure.holdings ++ stackHoldings frames) ++ held) procedure
        rw [List.append_assoc]
        exact owned_holdings procedure _
  | cons e rest =>
      refine ⟨st, rfl, ?_, hscope env he _, .cons (fun d hd => ?_) hs⟩
      · show Mirrored ⟨w, ((procedure.holdings ++ done.flatMap Handle.holdings) ++
          stackHoldings frames) ++ held, none⟩ st
        rwa [List.append_assoc]
      · cases hd
        exact he

end Evaluation

namespace Mirrored

variable {w : World} {st : Store} {held : List Holding}

/-- A frame that is given up lets go of what it owns. -/
theorem discardFrame {frame : Frame} (hm : Mirrored ⟨w, frame.holdings ++ held, none⟩ st) :
    Mirrored ⟨frame.discard w, held, none⟩ st := by
  cases frame with
  | operator env args => exact hm
  | argument env procedure done rest =>
      refine Mirrored.drop (Mirrored.dropAll (hm.permute ?_))
      rw [Frame.holdings, List.append_assoc]
      apply (List.perm_append_comm_assoc ..).trans
      exact (holdings_reverse_perm done).symm.append_right _
  | release procedure => exact hm.drop
  | leave scope => exact hm.leaveEnv

theorem discardTask {task : Task} (hm : Mirrored ⟨w, task.holdings ++ held, none⟩ st) :
    Mirrored ⟨task.discard w, held, none⟩ st := by
  cases task with
  | eval env e => exact hm
  | apply procedure args => exact hm.dropAll
  | finish outcome =>
      cases outcome with
      | ok h => exact hm.drop
      | error f => exact hm

theorem discardStack {frames : List Frame}
    (hm : Mirrored ⟨w, stackHoldings frames ++ held, none⟩ st) :
    Mirrored ⟨frames.foldl Frame.discard w, held, none⟩ st := by
  induction frames generalizing w with
  | nil => exact hm
  | cons frame frames ih =>
      rw [stackHoldings, List.flatMap_cons, List.append_assoc] at hm
      exact ih hm.discardFrame

end Mirrored

namespace Evaluation

variable {w : World} {st : Store} {held : List Holding} {frames : List Frame} {i : HeapId}

/-- A frame takes an outcome. -/
theorem continues_stepFinish {outcome : Except Failure Handle} {frame : Frame}
    (hm : Mirrored ⟨w, (Task.finish outcome).holdings ++
      (stackHoldings (frame :: frames) ++ held), none⟩ st)
    (hs : Stacked held (frame :: frames)) :
    Continues held (stepFinish w outcome frame frames)
      (Unmanaged.Evaluation.stepFinish st (outcome.map Handle.target) frame.bare
        (frames.map Frame.bare)) := by
  obtain - | ⟨hscope, hs⟩ := hs
  rw [stackHoldings, List.flatMap_cons, List.append_assoc] at hm
  -- an error gives up the frame, and so do the frames that only clean up
  have hdiscard : Mirrored ⟨frame.discard w, (Task.finish outcome).holdings ++
      (stackHoldings frames ++ held), none⟩ st :=
    Mirrored.discardFrame (hm.permute (List.perm_append_comm_assoc ..))
  cases outcome with
  | error f => cases frame <;> exact ⟨st, rfl, hdiscard, trivial, hs⟩
  | ok h =>
      cases frame with
      | operator env args =>
          refine continues_proceed (hm.permute ?_) (hscope env rfl) hs args
          rw [List.flatMap_nil, List.append_nil]
          exact .refl _
      | argument env procedure done rest =>
          refine continues_proceed (hm.permute ?_) (hscope env rfl) hs rest
          rw [List.flatMap_cons, Frame.holdings, List.append_assoc, List.append_assoc,
            List.append_assoc]
          exact List.perm_append_comm_assoc ..
      | release procedure => exact ⟨st, rfl, hdiscard, trivial, hs⟩
      | leave scope => exact ⟨st, rfl, hdiscard, trivial, hs⟩

/-- Evaluation goes the same way in the world and in the store, to the same outcome,
and lets go of everything else that it took over. -/
theorem Mirrors.run {s : Evaluation} {held : List Holding} {st : Store} (hm : s.Mirrors held st)
    (i : HeapId) (limit : Nat) :
    ObtainedHandle held (Evaluation.run i limit s)
      (Unmanaged.Evaluation.run i limit (s.bare st)) := by
  induction limit generalizing s st with
  | zero => exact .error hm.mirrored.discardTask.discardStack
  | succ limit ih =>
      obtain ⟨w, task, frames⟩ := s
      obtain ⟨hmir, hsup, hstack⟩ := hm
      -- a step that continues goes on with the induction
      have hgo : ∀ {s' : Evaluation} {t' : Unmanaged.Evaluation}, Continues held s' t' →
          ObtainedHandle held (Evaluation.run i limit s')
            (Unmanaged.Evaluation.run i limit t') := by
        rintro s' t' ⟨st', rfl, hm'⟩
        exact ih hm'
      cases task with
      | eval env e => exact hgo (continues_eval hmir hsup hstack i e)
      | apply procedure args => exact hgo (continues_apply hmir hsup hstack i)
      | finish outcome =>
          cases frames with
          | nil =>
              cases outcome with
              | ok h => exact .ok hmir
              | error f => exact .error hmir
          | cons frame frames => exact hgo (continues_stepFinish hmir hstack)

end Evaluation

namespace Mirrored

variable {w : World} {st : Store} {held : List Holding}

theorem eval {env : EnvId} (hm : Mirrored ⟨w, held, none⟩ st) (he : .share env ∈ held)
    (i : HeapId) (limit : Nat) (e : Expr) :
    ObtainedHandle held (w.eval i limit env e) (st.eval i limit env e) := by
  have hstart : Evaluation.Mirrors { world := w, task := .eval env e, frames := [] } held st :=
    ⟨hm, he, .nil⟩
  exact hstart.run i limit

theorem apply {procedure : Handle} {args : List Handle}
    (hm : Mirrored ⟨w, args.flatMap Handle.holdings ++ held, none⟩ st)
    (hp : Owned held procedure) (i : HeapId) (limit : Nat) :
    ObtainedHandle held (w.apply i limit procedure args)
      (st.apply i limit procedure.target (args.map Handle.target)) := by
  have hstart : Evaluation.Mirrors { world := w, task := .apply procedure args, frames := [] }
      held st := ⟨hm, hp, .nil⟩
  exact hstart.run i limit

end Mirrored

end HybridHeap
