import HybridHeap.Proofs.Session.Reachable
import HybridHeap.Proofs.World.Moves

/-!
The operations of a script as moves of its world. `Op.Works` says on which heaps an operation
works; on all others nothing happens but chores, new roots and new cells. `Op.Asks` says which
heaps it asks to collect. The evaluator comes first, one lemma per kind of step; then the
operations.
-/

namespace HybridHeap

/-- Whether an operation on the heap `i` works on the heap `j`: it collects it, or it writes to
one of its cells. Calls and evaluations may collect the heap that they run on. -/
def Op.Works (s : Session) (i : HeapId) : Op → HeapId → Prop
  | .set of value, j => ∃ c ∈ ((s.build i value).1.handle of).target, c.heap = j
  | .write of _ _, j => ∃ c ∈ (s.handle of).target, c.heap = j
  | .push of _, j => ∃ c ∈ (s.handle of).target, c.heap = j
  | .collect shared, j => (if shared then sharedHeap else i) = j
  | .call _ _ _, j => i = j
  | .eval _ _ _, j => i = j
  | _, _ => False

/-- In at most so many steps an evaluation comes to the procedure that asks for a collection. -/
inductive Evaluation.Asks (i : HeapId) : Nat → Evaluation → Prop
  | now {limit : Nat} {w : World} {procedure : Handle} {args : List Handle} {frames : List Frame}
      (hp : w.read procedure = .scalar (.primitive .gc)) :
      Asks i (limit + 1) { world := w, task := .apply procedure args, frames }
  | later {limit : Nat} {s s' : Evaluation} (hs : s.step i = .inl s') (ha : Asks i limit s') :
      Asks i (limit + 1) s

/-- Whether an operation on the heap `i` asks the heap `j` to collect: it is the request, or a
call or an evaluation that comes to it. -/
def Op.Asks (s : Session) (i : HeapId) : Op → HeapId → Prop
  | .collect shared, j => (if shared then sharedHeap else i) = j
  | .call of args _, j => i = j ∧ ∃ s' hs, s.resolveAll i [] args = (s', .ok hs) ∧
      Evaluation.Asks i evaluationSteps
        { world := s'.world, task := .apply (s'.handle of) hs, frames := [] }
  | .eval scope expr _, j => i = j ∧ ∃ e, s.scopes[scope]? = some e ∧
      Evaluation.Asks i evaluationSteps { world := s.world, task := .eval e expr, frames := [] }
  | _, _ => False

theorem Op.Asks.works {s : Session} {i j : HeapId} {op : Op} (ha : op.Asks s i j) :
    op.Works s i j := by
  cases op with
  | collect shared => exact ha
  | call of args dest => exact ha.1
  | eval scope expr dest => exact ha.1
  | _ => exact ha.elim

section Evaluator

variable {P : Permit} {i : HeapId}

namespace World

theorem moves_callPrimitive (w : World) {p : Primitive} (ha : p = .gc → P.collects i)
    (args : List Handle) : Moves P w (w.callPrimitive i p args).1 := by
  cases p with
  | nothing => exact .refl w
  | identity => exact w.moves_root _
  | add => exact w.moves_allocate _ _
  | cons => exact ((w.moves_root _).trans (moves_root _ _)).trans (moves_allocate _ _ _)
  | car =>
      have hget : Moves P w (w.get (args.getD 0 none) .first).1 := w.moves_get _ _
      simp only [callPrimitive]
      generalize w.get (args.getD 0 none) .first = out at hget ⊢
      obtain ⟨w', h | f⟩ := out
      · exact hget
      · exact hget
  | cdr =>
      have hget : Moves P w (w.get (args.getD 0 none) .second).1 := w.moves_get _ _
      simp only [callPrimitive]
      generalize w.get (args.getD 0 none) .second = out at hget ⊢
      obtain ⟨w', h | f⟩ := out
      · exact hget
      · exact hget
  | list => exact (w.moves_cloneAll args).trans (moves_list _ _ _)
  | vector => exact (w.moves_cloneAll args).trans (moves_allocate _ _ _)
  | gc => exact w.moves_collectNow (ha rfl)

end World

theorem Frame.moves_discard (w : World) (f : Frame) : World.Moves P w (f.discard w) := by
  cases f with
  | operator env args => exact .refl w
  | argument env procedure done rest =>
      exact (w.moves_settle _).trans (World.moves_drop _ _)
  | release procedure => exact w.moves_drop _
  | leave scope => exact w.moves_settle _

theorem Task.moves_discard (w : World) (t : Task) : World.Moves P w (t.discard w) := by
  cases t with
  | eval env e => exact .refl w
  | apply procedure args => exact w.moves_settle _
  | finish outcome =>
      cases outcome with
      | ok h => exact w.moves_drop h
      | error f => exact .refl w

namespace Evaluation

theorem moves_proceed (w : World) (env : EnvId) (procedure : Handle) (done : List Handle)
    (rest : List Expr) (frames : List Frame) :
    World.Moves P w (proceed w env procedure done rest frames).world := by
  cases rest <;> exact .refl w

theorem moves_stepEval (i : HeapId) (w : World) (env : EnvId) (e : Expr)
    (frames : List Frame) : World.Moves P w (stepEval i w env e frames).world := by
  cases e with
  | int n => exact w.moves_allocate i (.integer n)
  | var name =>
      have hlookup : World.Moves P w (w.lookup env name).1 := w.moves_lookup env name
      simp only [stepEval]
      generalize w.lookup env name = out at hlookup ⊢
      obtain ⟨w', h | h⟩ := out
      · exact hlookup
      · exact hlookup
  | lambda params rest body =>
      exact (w.moves_shareEnv env).trans
        (World.moves_allocate _ i (.closure (.lambda { params, rest, body }) env))
  | call callee args => exact .refl w

theorem moves_stepApply (w : World) {procedure : Handle}
    (ha : w.read procedure = .scalar (.primitive .gc) → P.collects i) (args : List Handle)
    (frames : List Frame) : World.Moves P w (stepApply i w procedure args frames).world := by
  unfold stepApply
  split
  · rename_i p hp
    have hcall : World.Moves P w (w.callPrimitive i p args).1 :=
      w.moves_callPrimitive (fun hgc => ha (hgc ▸ hp)) args
    exact hcall.trans (World.moves_settle _ _)
  · rename_i l env _
    have hbind : World.Moves P w (w.bind i l.params l.rest args (some env)).1 :=
      w.moves_bind i l.params l.rest args (some env)
    generalize w.bind i l.params l.rest args (some env) = out at hbind ⊢
    obtain ⟨w', e | f⟩ := out
    · exact hbind
    · exact hbind
  · exact w.moves_settle _

theorem moves_stepFinish (w : World) (outcome : Except Failure Handle) (frame : Frame)
    (frames : List Frame) : World.Moves P w (stepFinish w outcome frame frames).world := by
  unfold stepFinish
  split
  · exact moves_proceed _ _ _ _ _ _
  · exact moves_proceed _ _ _ _ _ _
  · exact frame.moves_discard w

theorem moves_abandon (s : Evaluation) : World.Moves P s.world s.abandon := by
  have hframes : ∀ (frames : List Frame) (w : World),
      World.Moves P w (frames.foldl Frame.discard w) := by
    intro frames
    induction frames with
    | nil => exact .refl
    | cons f frames ih => exact fun w => (f.moves_discard w).trans (ih _)
  exact (s.task.moves_discard s.world).trans (hframes s.frames _)

theorem moves_run (limit : Nat) (s : Evaluation) (ha : s.Asks i limit → P.collects i) :
    World.Moves P s.world (run i limit s).1 := by
  induction limit generalizing s with
  | zero => exact s.moves_abandon
  | succ limit ih =>
      obtain ⟨w, task, frames⟩ := s
      cases task with
      | eval env e =>
          exact (moves_stepEval i w env e frames).trans (ih _ fun h => ha (.later rfl h))
      | apply procedure args =>
          have happly := moves_stepApply w (fun hp => ha (.now hp)) args frames
          exact happly.trans (ih _ fun h => ha (.later rfl h))
      | finish outcome =>
          cases frames with
          | nil => exact .refl w
          | cons frame frames =>
              have hfinish : World.Moves P w _ := moves_stepFinish w outcome frame frames
              exact hfinish.trans (ih _ fun h => ha (.later rfl h))

end Evaluation

namespace World

theorem moves_eval (w : World) {limit : Nat} {env : EnvId} {e : Expr}
    (ha : Evaluation.Asks i limit { world := w, task := .eval env e, frames := [] } →
      P.collects i) : Moves P w (w.eval i limit env e).1 :=
  Evaluation.moves_run limit _ ha

theorem moves_apply (w : World) {limit : Nat} {procedure : Handle} {args : List Handle}
    (ha : Evaluation.Asks i limit { world := w, task := .apply procedure args, frames := [] } →
      P.collects i) : Moves P w (w.apply i limit procedure args).1 :=
  Evaluation.moves_run limit _ ha

end World

end Evaluator

namespace Session

/-- What becomes of the world of a session by moves that `P` permits. -/
def Moves (P : Permit) (s s' : Session) : Prop :=
  World.Moves P s.world s'.world

variable {P : Permit} {s s' s'' : Session}

theorem Moves.refl (s : Session) : s.Moves P s :=
  World.Moves.refl s.world

theorem Moves.trans (h : s.Moves P s') (h' : s'.Moves P s'') : s.Moves P s'' :=
  World.Moves.trans h h'

section Registers

variable (s : Session)

theorem moves_lift {α : Type} {out : World × α} (h : World.Moves P s.world out.1) :
    s.Moves P (s.lift out).1 := h

theorem moves_onWorld {f : World → World} (h : World.Moves P s.world (f s.world)) :
    s.Moves P (s.onWorld f) := h

theorem moves_store (dest : Option String) (h : Handle) : s.Moves P (s.store dest h) := by
  cases dest with
  | none => exact s.world.moves_drop h
  | some name => exact s.world.moves_drop _

theorem moves_storeScope (dest : Option String) (e : EnvId) :
    s.Moves P (s.storeScope dest e) := by
  cases dest with
  | none => exact s.world.moves_settle _
  | some name =>
      simp only [storeScope]
      split
      · exact .refl s
      · exact s.world.moves_settle _

theorem moves_withScope (name : String) (handed : List Handle) {f : EnvId → Session × Answer}
    (hf : ∀ e, s.scopes[name]? = some e → s.Moves P (f e).1) :
    s.Moves P (s.withScope name handed f).1 := by
  unfold withScope
  cases hn : s.scopes[name]? with
  | none => exact s.moves_onWorld (s.world.moves_settle _)
  | some e => exact hf e hn

theorem moves_withParent (parent : Option String) (handed : List Handle)
    {f : Option EnvId → Session × Answer} (hf : ∀ p, s.Moves P (f p).1) :
    s.Moves P (s.withParent parent handed f).1 := by
  cases parent with
  | none => exact hf none
  | some name => exact s.moves_withScope name handed fun e _ => hf (some e)

theorem moves_giveScope (dest : String) (e : Option EnvId) : s.Moves P (s.giveScope dest e).1 := by
  cases e with
  | none => exact .refl s
  | some e => exact (s.moves_onWorld (s.world.moves_shareEnv e)).trans (moves_storeScope _ _ _)

theorem moves_give (dest : Option String) (h : Handle) : s.Moves P (s.give dest h).1 :=
  s.moves_store dest h

theorem moves_giveOutcome (dest : Option String) (out : Session × Except Failure Handle) :
    out.1.Moves P (giveOutcome dest out).1 := by
  obtain ⟨s, f | h⟩ := out
  · exact .refl s
  · exact s.moves_give dest h

theorem moves_doneOutcome (out : Session × Except Failure Unit) :
    out.1.Moves P (doneOutcome out).1 := by
  obtain ⟨s, f | u⟩ := out
  · exact .refl s
  · exact .refl s

end Registers

mutual

theorem moves_resolve (s : Session) (i : HeapId) (operand : Operand) :
    s.Moves P (s.resolve i operand).1 := by
  cases operand with
  | null =>
      rw [resolve]
      exact .refl s
  | copy name =>
      rw [resolve]
      exact s.world.moves_root _
  | move name =>
      rw [resolve]
      exact World.Moves.refl _
  | fresh d =>
      have hbuild : s.Moves P (s.build i d).1 := s.moves_build i d
      rw [resolve]
      generalize s.build i d = out at hbuild ⊢
      obtain ⟨s', f | v⟩ := out
      · exact hbuild
      · exact hbuild.trans (s'.world.moves_allocate i v)
  | list items =>
      have hall : s.Moves P (s.resolveAll i [] items).1 := s.moves_resolveAll i [] items
      rw [resolve]
      generalize s.resolveAll i [] items = out at hall ⊢
      obtain ⟨s', f | hs⟩ := out
      · exact hall
      · exact hall.trans (s'.world.moves_list i hs)

theorem moves_resolveAll (s : Session) (i : HeapId) (done : List Handle)
    (operands : List Operand) : s.Moves P (s.resolveAll i done operands).1 := by
  cases operands with
  | nil =>
      rw [resolveAll]
      exact .refl s
  | cons operand operands =>
      have hone : s.Moves P (s.resolve i operand).1 := s.moves_resolve i operand
      rw [resolveAll]
      generalize s.resolve i operand = out at hone ⊢
      obtain ⟨s', f | h⟩ := out
      · exact hone.trans (s'.world.moves_settle _)
      · exact hone.trans (s'.moves_resolveAll i (h :: done) operands)

theorem moves_build (s : Session) (i : HeapId) (d : Draft) : s.Moves P (s.build i d).1 := by
  cases d with
  | scalar v =>
      rw [build]
      exact .refl s
  | pair first second =>
      have hfirst : s.Moves P (s.resolve i first).1 := s.moves_resolve i first
      rw [build]
      generalize s.resolve i first = out at hfirst ⊢
      obtain ⟨s', f | a⟩ := out
      · exact hfirst
      · have hsecond : s'.Moves P (s'.resolve i second).1 := s'.moves_resolve i second
        dsimp only
        generalize s'.resolve i second = out at hsecond ⊢
        obtain ⟨s'', f | b⟩ := out
        · exact (hfirst.trans hsecond).trans (s''.world.moves_drop a)
        · exact hfirst.trans hsecond
  | vector items =>
      have hall : s.Moves P (s.resolveAll i [] items).1 := s.moves_resolveAll i [] items
      rw [build]
      generalize s.resolveAll i [] items = out at hall ⊢
      obtain ⟨s', f | hs⟩ := out
      · exact hall
      · exact hall
  | closure code scope =>
      rw [build]
      cases s.scopes[scope]? with
      | none => exact .refl s
      | some e => exact s.world.moves_shareEnv e
  | held name =>
      rw [build]
      exact World.Moves.refl _

end

section Operations

variable (s : Session) (i : HeapId)

theorem moves_withOperand (operand : Operand) {f : Session → Handle → Session × Answer}
    (hf : ∀ (s : Session) h, s.Moves P (f s h).1) :
    s.Moves P (s.withOperand i operand f).1 := by
  have hone : s.Moves P (s.resolve i operand).1 := s.moves_resolve i operand
  unfold withOperand
  generalize s.resolve i operand = out at hone ⊢
  obtain ⟨s', g | h⟩ := out
  · exact hone
  · exact hone.trans (hf s' h)

theorem moves_withDraft (draft : Draft) {f : Session → Value Handle → Session × Answer}
    (hf : ∀ v, (s.build i draft).1.Moves P (f (s.build i draft).1 v).1) :
    s.Moves P (s.withDraft i draft f).1 := by
  have hbuild : s.Moves P (s.build i draft).1 := s.moves_build i draft
  unfold withDraft
  generalize s.build i draft = out at hbuild hf ⊢
  obtain ⟨s', g | v⟩ := out
  · exact hbuild
  · exact hbuild.trans (hf v)

theorem moves_withOperands (operands : List Operand)
    {f : Session → List Handle → Session × Answer}
    (hf : ∀ s' hs, s.resolveAll i [] operands = (s', .ok hs) → s'.Moves P (f s' hs).1) :
    s.Moves P (match s.resolveAll i [] operands with
      | (s, .error failure) => (s, .failure failure)
      | (s, .ok hs) => f s hs : Session × Answer).1 := by
  have hall : s.Moves P (s.resolveAll i [] operands).1 := s.moves_resolveAll i [] operands
  generalize s.resolveAll i [] operands = out at hall hf ⊢
  obtain ⟨s', g | hs⟩ := out
  · exact hall
  · exact hall.trans (hf s' hs rfl)

theorem moves_keep (name : String) (v : Value Handle) : s.Moves P (s.keep name v) := by
  simp only [keep]
  split
  · exact .refl s
  · exact s.world.moves_settle _

theorem moves_putChild (name : String) (index : Nat) (h : Handle) :
    s.Moves P (s.putChild name index h).1 := by
  simp only [putChild]
  split
  · exact s.world.moves_settle _
  · exact s.world.moves_drop h

theorem moves_giveChild (of : String) (index : Nat) (target : String)
    (dest : Option String) : s.Moves P (s.giveChild of index target dest).1 := by
  unfold giveChild
  split
  · exact .refl s
  · exact (s.moves_lift (s.world.moves_root _)).trans (moves_store _ dest _)

theorem moves_boundOutcome (out : Session × Except Failure EnvId) (dest : Option String) :
    out.1.Moves P (boundOutcome dest out).1 := by
  obtain ⟨s, f | e⟩ := out
  · exact .refl s
  · exact s.moves_storeScope dest e

theorem moves_performBind (dest : Option String) (params : List String)
    (rest : Option String) (args : List Operand) (parent : Option String) :
    s.Moves P (s.performBind i dest params rest args parent).1 := by
  unfold performBind
  refine s.moves_withOperands i args fun s hs _ => ?_
  exact s.moves_withParent parent hs fun p =>
    (s.moves_lift (s.world.moves_bind i params rest hs p)).trans (moves_boundOutcome _ dest)

/-- Whatever an operation does, on the heaps that it does not work on nothing happens but
chores, new roots and new cells, and no heap is asked to collect by it but those of
`Op.Asks`. -/
theorem moves_performOp {op : Op} (hd : ∀ j, op.Works s i j → P.works j)
    (ha : ∀ j, op.Asks s i j → P.collects j) : s.Moves P (s.performOp i op).1 := by
  cases op with
  | allocate value shared dest =>
      exact s.moves_withDraft i value fun v =>
        (moves_lift _ (World.moves_allocate _ _ v)).trans (moves_giveOutcome dest _)
  | list items dest =>
      exact s.moves_withOperands i items fun s hs _ =>
        (s.moves_lift (s.world.moves_list i hs)).trans (moves_giveOutcome dest _)
  | clone of dest =>
      exact (s.moves_lift (s.world.moves_root _)).trans (moves_give _ dest _)
  | move of dest => exact (s.take of).1.moves_give dest _
  | null dest => exact s.moves_give dest none
  | drop of => exact s.world.moves_drop _
  | get of position dest =>
      exact (s.moves_lift (s.world.moves_get _ position)).trans (moves_giveOutcome dest _)
  | length of =>
      simp only [performOp]
      split <;> exact .refl s
  | isEmpty of =>
      simp only [performOp]
      split <;> exact .refl s
  | set of value =>
      exact s.moves_withDraft i value fun v =>
        (moves_lift _ (World.moves_set _ (fun c hc => hd _ ⟨c, hc, rfl⟩) v)).trans
          (moves_doneOutcome _)
  | write of position target =>
      exact (s.moves_lift (s.world.moves_write (fun c hc => hd _ ⟨c, hc, rfl⟩) position _)).trans
        (moves_doneOutcome _)
  | push of target =>
      exact (s.moves_lift (s.world.moves_push (fun c hc => hd _ ⟨c, hc, rfl⟩) _)).trans
        (moves_doneOutcome _)
  | slot of index target dest => exact s.moves_giveChild of index target dest
  | hold name value => exact s.moves_withDraft i value fun v => moves_keep _ name v
  | dropHeld name =>
      simp only [performOp]
      split
      · exact .refl s
      · exact s.world.moves_settle _
  | heldSlots name =>
      simp only [performOp]
      split <;> exact .refl s
  | heldPut name index value =>
      exact s.moves_withOperand i value fun s h => s.moves_putChild name index h
  | collect shared => exact s.world.moves_collectNow (ha _ rfl)
  | newScope dest parent =>
      exact s.moves_withParent parent [] fun p =>
        (s.moves_lift (s.world.moves_newEnv p)).trans (moves_storeScope _ _ _)
  | bind dest params rest args parent => exact s.moves_performBind i dest params rest args parent
  | define scope name value =>
      exact s.moves_withOperand i value fun s h =>
        s.moves_withScope scope [h] fun e _ => s.moves_onWorld (s.world.moves_define e name h)
  | assign scope name value =>
      exact s.moves_withOperand i value fun s h =>
        s.moves_withScope scope [h] fun e _ =>
          (s.moves_lift (s.world.moves_assign e name h)).trans (moves_doneOutcome _)
  | lookup scope name dest =>
      refine s.moves_withScope scope [] fun e _ => ?_
      have hlookup : s.Moves P (s.lift (s.world.lookup e name)).1 :=
        s.moves_lift (s.world.moves_lookup e name)
      generalize s.lift (s.world.lookup e name) = out at hlookup ⊢
      obtain ⟨s', h | h⟩ := out
      · exact hlookup
      · exact hlookup.trans (s'.moves_give dest h)
  | scopeInfo scope name => exact s.moves_withScope scope [] fun _ _ => .refl s
  | parentScope scope dest =>
      exact s.moves_withScope scope [] fun _ _ => s.moves_giveScope dest _
  | closureScope of dest => exact s.moves_giveScope dest _
  | dropScope scope =>
      simp only [performOp]
      split
      · exact .refl s
      · exact s.world.moves_settle _
  | call of args dest =>
      exact s.moves_withOperands i args fun s' hs hresolved =>
        (s'.moves_lift (s'.world.moves_apply fun h => ha _ ⟨rfl, s', hs, hresolved, h⟩)).trans
          (moves_giveOutcome dest _)
  | eval scope expr dest =>
      exact s.moves_withScope scope [] fun e hn =>
        (s.moves_lift (s.world.moves_eval fun h => ha _ ⟨rfl, e, hn, h⟩)).trans
          (moves_giveOutcome dest _)
  | _ => exact .refl s

end Operations

end Session

end HybridHeap
