import HybridHeap.Proofs.Session.Reachable

/-!
Refusals of references that cross from one heap into another. The evaluator and the
operations place values in new cells, and are refused if such a value has a foreign
reference; apart from that only a replacement and the writers are ever refused for one.
-/

namespace HybridHeap

/-- If the outcome is the refusal of a foreign reference, that was to go into a new cell. -/
def OnlyInNewCell {α : Type} (out : Except Failure α) : Prop :=
  ∀ k, out = .error (.foreign k) → k = .inNewCell

variable {α : Type}

theorem onlyInNewCell_ok (a : α) : OnlyInNewCell (.ok a) :=
  fun _ h => by cases h

theorem OnlyInNewCell.error {β : Type} {f : Failure}
    (h : OnlyInNewCell (.error f : Except Failure α)) :
    OnlyInNewCell (.error f : Except Failure β) :=
  fun k hk => h k (by cases hk; rfl)

namespace World

variable (w : World) (i : HeapId)

theorem onlyInNewCell_allocate (v : Value Handle) : OnlyInNewCell (w.allocate i v).2 := by
  unfold allocate
  split
  · split
    · exact onlyInNewCell_ok _
    · exact onlyInNewCell_ok _
  · exact fun k hk => by cases hk; rfl

theorem onlyInNewCell_consAll (tail : Handle) (items : List Handle) :
    OnlyInNewCell (w.consAll i tail items).2 := by
  induction items generalizing w tail with
  | nil => exact onlyInNewCell_ok _
  | cons item earlier ih =>
      have hpair := w.onlyInNewCell_allocate i (.pair item tail)
      rw [consAll]
      split
      · exact ih _ _
      · rename_i he
        rw [he] at hpair
        exact hpair

theorem onlyInNewCell_list (items : List Handle) : OnlyInNewCell (w.list i items).2 :=
  w.onlyInNewCell_consAll i none items.reverse

theorem onlyInNewCell_get (h : Handle) (p : Position) : OnlyInNewCell (w.get h p).2 := by
  unfold get
  split
  · exact fun k hk => by cases hk
  · split
    · exact fun k hk => by cases hk
    · exact onlyInNewCell_ok _

theorem onlyInNewCell_bind (params : List String) (rest : Option String) (args : List Handle)
    (parent : Option EnvId) : OnlyInNewCell (w.bind i params rest args parent).2 := by
  unfold bind
  split
  · exact fun k hk => by cases hk
  · dsimp only
    split
    · exact onlyInNewCell_ok _
    · have hlist := onlyInNewCell_list
        ((w.newEnv parent).1.defineAll (w.newEnv parent).2 (params.zip args)) i
        (args.drop params.length)
      split
      · exact onlyInNewCell_ok _
      · rename_i he
        rw [he] at hlist
        exact hlist.error

theorem onlyInNewCell_assign (e : EnvId) (name : String) (h : Handle) :
    OnlyInNewCell (w.assign e name h).2 := by
  unfold assign
  split
  · exact fun k hk => by cases hk
  · exact onlyInNewCell_ok _

theorem onlyInNewCell_callPrimitive (p : Primitive) (args : List Handle) :
    OnlyInNewCell (w.callPrimitive i p args).2 := by
  cases p with
  | nothing => exact onlyInNewCell_ok _
  | identity => exact onlyInNewCell_ok _
  | add => exact w.onlyInNewCell_allocate i _
  | cons => exact onlyInNewCell_allocate _ i _
  | car =>
      simp only [callPrimitive]
      split <;> exact onlyInNewCell_ok _
  | cdr =>
      simp only [callPrimitive]
      split <;> exact onlyInNewCell_ok _
  | list => exact onlyInNewCell_list _ i _
  | vector => exact onlyInNewCell_allocate _ i _
  | gc => exact onlyInNewCell_ok _

theorem vectorSize_ne_foreign (h : Handle) (k : ForeignReference) :
    w.vectorSize h ≠ .error (.foreign k) := by
  unfold vectorSize
  split
  · exact fun hk => by cases hk
  · rename_i c _
    cases (w.readCell c).vectorSize <;> exact fun hk => by cases hk

variable {w}

theorem set_foreign {h : Handle} {v : Value Handle} {k : ForeignReference}
    (hk : (w.set h v).2 = .error (.foreign k)) : k = .inReplacement := by
  unfold set at hk
  split at hk
  · cases hk
  · split at hk
    · cases hk
    · cases hk
      rfl

theorem edit_foreign {h target : Handle}
    {change : Heap → CellId → Slot → Except AccessError Reclamation} {k : ForeignReference}
    (hk : (w.edit h target change).2 = .error (.foreign k)) : k = .asTarget := by
  unfold edit at hk
  split at hk
  · cases hk
  · split at hk
    · split at hk
      · cases hk
      · split at hk
        · cases hk
        · cases hk
    · cases hk
      rfl

end World

namespace Evaluation

/-- The refusals that an evaluation is about to give back. -/
def Refuses (s : Evaluation) : Prop :=
  ∀ outcome, s.task = .finish outcome → OnlyInNewCell outcome

theorem refuses_proceed (w : World) (env : EnvId) (procedure : Handle) (done : List Handle)
    (rest : List Expr) (frames : List Frame) :
    (proceed w env procedure done rest frames).Refuses := by
  cases rest <;> exact fun _ h => by cases h

theorem refuses_finish {w : World} {outcome : Except Failure Handle} {frames : List Frame}
    (h : OnlyInNewCell outcome) :
    Refuses { world := w, task := .finish outcome, frames } := by
  intro outcome' he
  cases he
  exact h

theorem refuses_stepEval (i : HeapId) (w : World) (env : EnvId) (e : Expr)
    (frames : List Frame) : (stepEval i w env e frames).Refuses := by
  cases e with
  | int n => exact refuses_finish (w.onlyInNewCell_allocate i (.integer n))
  | var name =>
      simp only [stepEval]
      split
      · exact refuses_finish (onlyInNewCell_ok _)
      · exact refuses_finish fun k hk => by cases hk
  | lambda params rest body =>
      exact refuses_finish ((w.shareEnv env).onlyInNewCell_allocate i
        (.closure (.lambda { params, rest, body }) env))
  | call callee args => exact fun _ h => by cases h

theorem refuses_stepApply (i : HeapId) (w : World) (procedure : Handle) (args : List Handle)
    (frames : List Frame) : (stepApply i w procedure args frames).Refuses := by
  unfold stepApply
  split
  · rename_i p _
    exact refuses_finish (w.onlyInNewCell_callPrimitive i p args)
  · rename_i l env _
    have hbind := w.onlyInNewCell_bind i l.params l.rest args (some env)
    split
    · exact fun _ h => by cases h
    · rename_i he
      rw [he] at hbind
      exact refuses_finish hbind.error
  · exact refuses_finish fun k hk => by cases hk

theorem refuses_stepFinish {w : World} {outcome : Except Failure Handle} {frame : Frame}
    {frames : List Frame} (h : OnlyInNewCell outcome) :
    (stepFinish w outcome frame frames).Refuses := by
  unfold stepFinish
  split
  · exact refuses_proceed _ _ _ _ _ _
  · exact refuses_proceed _ _ _ _ _ _
  · exact refuses_finish h

theorem onlyInNewCell_run (i : HeapId) (limit : Nat) {s : Evaluation} (hs : s.Refuses) :
    OnlyInNewCell (run i limit s).2 := by
  induction limit generalizing s with
  | zero => exact fun k hk => by cases hk
  | succ limit ih =>
      obtain ⟨w, task, frames⟩ := s
      cases task with
      | eval env e => exact ih (refuses_stepEval i w env e frames)
      | apply procedure args => exact ih (refuses_stepApply i w procedure args frames)
      | finish outcome =>
          have houtcome : OnlyInNewCell outcome := hs outcome rfl
          cases frames with
          | nil => exact houtcome
          | cons frame frames => exact ih (refuses_stepFinish houtcome)

end Evaluation

namespace Session

mutual

theorem onlyInNewCell_resolve (s : Session) (i : HeapId) (operand : Operand) :
    OnlyInNewCell (s.resolve i operand).2 := by
  cases operand with
  | null =>
      rw [resolve]
      exact onlyInNewCell_ok _
  | copy name =>
      rw [resolve]
      exact onlyInNewCell_ok _
  | move name =>
      rw [resolve]
      exact onlyInNewCell_ok _
  | fresh d =>
      have hbuild := s.onlyInNewCell_build i d
      rw [resolve]
      split
      · exact World.onlyInNewCell_allocate _ i _
      · rename_i he
        rw [he] at hbuild
        exact hbuild.error
  | list items =>
      have hall := s.onlyInNewCell_resolveAll i [] items
      rw [resolve]
      split
      · exact World.onlyInNewCell_list _ i _
      · rename_i he
        rw [he] at hall
        exact hall.error

theorem onlyInNewCell_resolveAll (s : Session) (i : HeapId) (done : List Handle)
    (operands : List Operand) : OnlyInNewCell (s.resolveAll i done operands).2 := by
  cases operands with
  | nil =>
      rw [resolveAll]
      exact onlyInNewCell_ok _
  | cons operand operands =>
      have hone := s.onlyInNewCell_resolve i operand
      rw [resolveAll]
      split
      · rename_i s' h he
        exact s'.onlyInNewCell_resolveAll i (h :: done) operands
      · rename_i he
        rw [he] at hone
        exact hone.error

theorem onlyInNewCell_build (s : Session) (i : HeapId) (d : Draft) :
    OnlyInNewCell (s.build i d).2 := by
  cases d with
  | scalar v =>
      rw [build]
      exact onlyInNewCell_ok _
  | pair first second =>
      have hfirst := s.onlyInNewCell_resolve i first
      rw [build]
      split
      · rename_i he
        rw [he] at hfirst
        exact hfirst.error
      · rename_i s' a he
        have hsecond := s'.onlyInNewCell_resolve i second
        split
        · rename_i he'
          rw [he'] at hsecond
          exact hsecond.error
        · exact onlyInNewCell_ok _
  | vector items =>
      have hall := s.onlyInNewCell_resolveAll i [] items
      rw [build]
      split
      · rename_i he
        rw [he] at hall
        exact hall.error
      · exact onlyInNewCell_ok _
  | closure code scope =>
      rw [build]
      split
      · exact fun _ hk => by cases hk
      · exact onlyInNewCell_ok _
  | held name =>
      rw [build]
      exact onlyInNewCell_ok _

end

end Session

/-- The foreign references for which an operation may be refused: all of them may put one
into a new cell, a replacement may put one into its cell, and the writers may be given one
as their target. -/
inductive Op.Crosses (op : Op) : ForeignReference → Prop
  | inNewCell : Crosses op .inNewCell
  | inReplacement {of : String} {value : Draft} (h : op = .set of value) :
      Crosses op .inReplacement
  | written {of target : String} {p : Position} (h : op = .write of p target) :
      Crosses op .asTarget
  | pushed {of target : String} (h : op = .push of target) : Crosses op .asTarget

/-- The answer to an operation that is refused for nothing else. -/
def Op.Refusable (op : Op) (a : Answer) : Prop :=
  ∀ k, a = .failure (.foreign k) → op.Crosses k

namespace Session

variable {op : Op}

theorem refusable_of_onlyInNewCell {f : Failure}
    (h : OnlyInNewCell (.error f : Except Failure α)) : op.Refusable (.failure f) := by
  rintro k hk
  cases hk
  rw [h k rfl]
  exact .inNewCell

theorem refusable_giveOutcome (dest : Option String) {out : Session × Except Failure Handle}
    (h : OnlyInNewCell out.2) : op.Refusable (giveOutcome dest out).2 := by
  obtain ⟨s, f | a⟩ := out
  · exact refusable_of_onlyInNewCell h
  · exact fun _ hk => by cases hk

theorem refusable_doneOutcome {out : Session × Except Failure Unit}
    (h : ∀ k, out.2 = .error (.foreign k) → op.Crosses k) :
    op.Refusable (doneOutcome out).2 := by
  obtain ⟨s, f | a⟩ := out
  · rintro k hk
    cases hk
    exact h k rfl
  · exact fun _ hk => by cases hk

variable (s : Session) (i : HeapId)

theorem refusable_withDraft (draft : Draft) {f : Session → Value Handle → Session × Answer}
    (hf : ∀ s v, op.Refusable (f s v).2) : op.Refusable (s.withDraft i draft f).2 := by
  have hbuild := s.onlyInNewCell_build i draft
  unfold withDraft
  split
  · rename_i he
    rw [he] at hbuild
    exact refusable_of_onlyInNewCell hbuild
  · exact hf _ _

theorem refusable_withOperand (operand : Operand) {f : Session → Handle → Session × Answer}
    (hf : ∀ s h, op.Refusable (f s h).2) : op.Refusable (s.withOperand i operand f).2 := by
  have hone := s.onlyInNewCell_resolve i operand
  unfold withOperand
  split
  · rename_i he
    rw [he] at hone
    exact refusable_of_onlyInNewCell hone
  · exact hf _ _

theorem refusable_withOperands (operands : List Operand)
    {f : Session → List Handle → Session × Answer} (hf : ∀ s hs, op.Refusable (f s hs).2) :
    op.Refusable (match s.resolveAll i [] operands with
      | (s, .error failure) => (s, .failure failure)
      | (s, .ok hs) => f s hs : Session × Answer).2 := by
  have hall := s.onlyInNewCell_resolveAll i [] operands
  split
  · rename_i he
    rw [he] at hall
    exact refusable_of_onlyInNewCell hall
  · exact hf _ _

theorem refusable_withScope (name : String) (handed : List Handle)
    {f : EnvId → Session × Answer} (hf : ∀ e, op.Refusable (f e).2) :
    op.Refusable (s.withScope name handed f).2 := by
  unfold withScope
  split
  · exact fun _ hk => by cases hk
  · exact hf _

theorem refusable_withParent (parent : Option String) (handed : List Handle)
    {f : Option EnvId → Session × Answer} (hf : ∀ p, op.Refusable (f p).2) :
    op.Refusable (s.withParent parent handed f).2 := by
  cases parent with
  | none => exact hf none
  | some name => exact s.refusable_withScope name handed fun e => hf (some e)

theorem refusable_giveScope (dest : String) (e : Option EnvId) :
    op.Refusable (s.giveScope dest e).2 := by
  cases e <;> exact fun _ hk => by cases hk

theorem refusable_boundOutcome (out : Session × Except Failure EnvId) (dest : Option String)
    (h : OnlyInNewCell out.2) : op.Refusable (boundOutcome dest out).2 := by
  obtain ⟨s, f | e⟩ := out
  · exact refusable_of_onlyInNewCell h
  · exact fun _ hk => by cases hk

theorem refusable_performBind (dest : Option String) (params : List String)
    (rest : Option String) (args : List Operand) (parent : Option String) :
    op.Refusable (s.performBind i dest params rest args parent).2 := by
  unfold performBind
  refine s.refusable_withOperands i args fun s hs => ?_
  exact s.refusable_withParent parent hs fun p =>
    refusable_boundOutcome (s.lift (s.world.bind i params rest hs p)) dest
      (s.world.onlyInNewCell_bind i params rest hs p)

theorem refusable_vectorSize (of : String) (f : Nat → Answer) (hf : ∀ n, op.Refusable (f n)) :
    op.Refusable (match s.world.vectorSize (s.handle of) with
      | .ok n => (s, f n)
      | .error failure => (s, .failure failure) : Session × Answer).2 := by
  split
  · exact hf _
  · rename_i he
    rintro k hk
    cases hk
    exact absurd he (World.vectorSize_ne_foreign _ _ k)

/-- An operation is refused for a foreign reference only where it could store one. -/
theorem refusable_performOp (op : Op) : op.Refusable (s.performOp i op).2 := by
  cases op with
  | allocate value shared dest =>
      exact s.refusable_withDraft i value fun s v =>
        refusable_giveOutcome dest (s.world.onlyInNewCell_allocate _ v)
  | list items dest =>
      exact s.refusable_withOperands i items fun s hs =>
        refusable_giveOutcome dest (s.world.onlyInNewCell_list i hs)
  | get of position dest =>
      exact refusable_giveOutcome dest (s.world.onlyInNewCell_get _ position)
  | length of => exact s.refusable_vectorSize of _ fun _ k hk => by cases hk
  | isEmpty of => exact s.refusable_vectorSize of _ fun _ k hk => by cases hk
  | set of value =>
      refine s.refusable_withDraft i value fun s v => refusable_doneOutcome fun k hk => ?_
      rw [World.set_foreign hk]
      exact .inReplacement rfl
  | write of position target =>
      refine refusable_doneOutcome fun k hk => ?_
      rw [World.edit_foreign hk]
      exact .written rfl
  | push of target =>
      refine refusable_doneOutcome fun k hk => ?_
      rw [World.edit_foreign hk]
      exact .pushed rfl
  | slot of index target dest =>
      simp only [performOp, giveChild]
      split <;> exact fun _ hk => by cases hk
  | hold name value => exact s.refusable_withDraft i value fun s v _ hk => by cases hk
  | dropHeld name =>
      simp only [performOp]
      split <;> exact fun _ hk => by cases hk
  | heldSlots name =>
      simp only [performOp]
      split <;> exact fun _ hk => by cases hk
  | heldPut name index value =>
      refine s.refusable_withOperand i value fun s h => ?_
      simp only [putChild]
      split <;> exact fun _ hk => by cases hk
  | bind dest params rest args parent =>
      exact s.refusable_performBind i dest params rest args parent
  | newScope dest parent =>
      exact s.refusable_withParent parent [] fun _ _ hk => by cases hk
  | define scope name value =>
      exact s.refusable_withOperand i value fun s h =>
        s.refusable_withScope scope [h] fun _ _ hk => by cases hk
  | assign scope name value =>
      refine s.refusable_withOperand i value fun s h => ?_
      refine s.refusable_withScope scope [h] fun e => refusable_doneOutcome fun k hk => ?_
      rw [World.onlyInNewCell_assign _ _ name h k hk]
      exact .inNewCell
  | lookup scope name dest =>
      refine s.refusable_withScope scope [] fun e => ?_
      split <;> exact fun _ hk => by cases hk
  | scopeInfo scope name => exact s.refusable_withScope scope [] fun _ _ hk => by cases hk
  | parentScope scope dest =>
      exact s.refusable_withScope scope [] fun _ => s.refusable_giveScope dest _
  | closureScope of dest => exact s.refusable_giveScope dest _
  | dropScope scope =>
      simp only [performOp]
      split <;> exact fun _ hk => by cases hk
  | call of args dest =>
      exact s.refusable_withOperands i args fun s hs =>
        refusable_giveOutcome dest (Evaluation.onlyInNewCell_run i evaluationSteps
          fun _ h => by cases h)
  | eval scope expr dest =>
      exact s.refusable_withScope scope [] fun e =>
        refusable_giveOutcome dest (Evaluation.onlyInNewCell_run i evaluationSteps
          fun _ h => by cases h)
  | _ => exact fun _ hk => by cases hk

end Session

end HybridHeap
