import HybridHeap.Proofs.Mirror.Answers

/-!
Script operations, on a world and on a store. One lemma for the operations of each
kind leads to `Mirrors.performOp`: whatever the operation, the registers are the same
afterwards and own everything again, and what can be seen of the answers is the same.
-/

namespace HybridHeap

open Unmanaged (Store)

namespace Session

-- their equations are made here once, so that the lemmas below need not wait for them
attribute [local simp] Session.performOp Unmanaged.Session.performOp

variable {s : Session} {st : Store} {h : Handle} {i : HeapId}

theorem Mirrors.withHandles {f : Session → List Handle → Session × Answer}
    {g : Unmanaged.Session → List Slot → Unmanaged.Session × Answer} (hm : s.Mirrors [] st)
    (i : HeapId) (operands : List Operand)
    (hf : ∀ {s hs st}, s.Mirrors (hs.flatMap Handle.holdings ++ []) st →
      Answers (f s hs) (g (s.bare st) (hs.map Handle.target))) :
    Answers
      (match s.resolveAll i [] operands with
        | (s, .error f) => (s, .failure f)
        | (s, .ok hs) => f s hs)
      (match (s.bare st).resolveAll i [] operands with
        | (s, .error f) => (s, .failure f)
        | (s, .ok hs) => g s hs) := by
  have hy := Mirrors.resolveAll [] hm i operands
  rw [List.map_nil] at hy
  generalize s.resolveAll i [] operands = out at hy ⊢
  generalize (s.bare st).resolveAll i [] operands = out' at hy ⊢
  cases hy with
  | ok hm' => exact hf hm'
  | error hm' => exact hm'.answers rfl

/-- An operation of the world on what is in hand. -/
theorem Mirrors.giveLift {l : List Holding} (hm : s.Mirrors (l ++ []) st)
    (dest : Option String) {out : World × Except Failure Handle}
    {out' : Store × Except Failure Slot}
    (ho : Mirrored ⟨s.world, l ++ ([] ++ s.holdings), none⟩ st →
      ObtainedHandle ([] ++ s.holdings) out out') :
    Answers (giveOutcome dest (s.lift out))
      (Unmanaged.Session.giveOutcome dest ((s.bare st).lift out')) :=
  answers_giveOutcome (yields_lift (ho hm.mirrored)) dest

/-! Handles and cells -/

theorem Mirrors.performClone (hm : s.Mirrors [] st) (of : String) (dest : Option String) :
    Answers (s.performOp i (.clone of dest)) ((s.bare st).performOp i (.clone of dest)) := by
  obtain ⟨htarget, hm'⟩ := Mirrored.clone hm (s.owned_handle [] of)
  rw [Session.performOp, Unmanaged.Session.performOp, bare_slot, ← htarget]
  rw [← List.append_assoc] at hm'
  exact Mirrors.give (s := { s with world := (s.world.clone (s.handle of)).1 }) hm' dest

theorem Mirrors.performMove (hm : s.Mirrors [] st) (of : String) (dest : Option String) :
    Answers (s.performOp i (.move of dest)) ((s.bare st).performOp i (.move of dest)) := by
  obtain ⟨htake, hm'⟩ := hm.take of
  rw [Session.performOp, Unmanaged.Session.performOp, htake]
  exact hm'.give dest

theorem Mirrors.performDrop (hm : s.Mirrors [] st) (of : String) :
    Answers (s.performOp i (.drop of)) ((s.bare st).performOp i (.drop of)) := by
  obtain ⟨htake, hm'⟩ := hm.take of
  have hcontains : (s.bare st).registers.contains of = s.registers.contains of := by
    rw [bare, Std.ExtTreeMap.contains_map]
  rw [Session.performOp, Unmanaged.Session.performOp, htake, hcontains]
  refine Mirrors.answers (s := (s.take of).1.onWorld (·.drop (s.take of).2)) ?_ rfl
  exact hm'.mirrored.drop

theorem Mirrors.performVectorSize (hm : s.Mirrors [] st) (of : String) (answer : Nat → Answer)
    (hvisible : ∀ n, (answer n).visible = answer n) :
    Answers
      (match s.world.vectorSize (s.handle of) with
        | .ok n => (s, answer n)
        | .error f => (s, .failure f))
      (match (s.bare st).store.vectorSize ((s.bare st).slot of) with
        | .ok n => (s.bare st, answer n)
        | .error f => (s.bare st, .failure f)) := by
  rw [bare_slot, Mirrored.vectorSize hm (s.owned_handle [] of)]
  show Answers _ (match st.vectorSize (s.handle of).target with
    | .ok n => (s.bare st, answer n)
    | .error f => (s.bare st, .failure f))
  cases st.vectorSize (s.handle of).target with
  | ok n => exact hm.answers (hvisible n)
  | error f => exact hm.answers rfl

theorem Mirrors.performRead (hm : s.Mirrors [] st) (of : String) :
    Answers (s.performOp i (.read of)) ((s.bare st).performOp i (.read of)) := by
  have hview := hm.view (Mirrored.env_of_read hm (hm.live of))
  rw [Session.performOp, Unmanaged.Session.performOp, bare_slot]
  show Answers _ (_, .view ((s.bare st).view (st.read (s.handle of).target)))
  rw [← hm.read of]
  exact hm.answers (congrArg Answer.view hview.symm)

theorem Mirrors.performSlots (hm : s.Mirrors [] st) (of : String) :
    Answers (s.performOp i (.slots of)) ((s.bare st).performOp i (.slots of)) := by
  rw [Session.performOp, Unmanaged.Session.performOp, bare_slot]
  show Answers _ (_, .slots ((st.read (s.handle of).target).children.map
    fun c => (c, (st.read c).kind)))
  rw [← hm.read of]
  refine hm.answers (congrArg Answer.slots (List.map_congr_left fun c hc => ?_))
  rw [hm.agrees.readSlot hm.balanced (Mirrored.live_of_mem_children hm (hm.live of) hc)]

theorem Mirrors.performHold (hm : s.Mirrors [] st) (name : String) (value : Draft) :
    Answers (s.performOp i (.hold name value)) ((s.bare st).performOp i (.hold name value)) := by
  rw [Session.performOp, Unmanaged.Session.performOp]
  refine hm.withDraft i value fun {s v st} hm' => ?_
  have hscope : ∀ e ∈ v.placed.env?, ∃ env, s.world.envs[e]? = some env := by
    intro e he
    rw [Value.placed, Value.env?_map] at he
    refine hm'.balanced.env_of_share (List.mem_append_left _ (List.mem_append_left _ ?_))
    exact List.mem_append_right _ (List.mem_map_of_mem (Option.mem_toList.mpr he))
  rw [← bare_keep, hm'.view hscope]
  exact (hm'.keep name).answers rfl

theorem Mirrors.performDropHeld (hm : s.Mirrors [] st) (name : String) :
    Answers (s.performOp i (.dropHeld name)) ((s.bare st).performOp i (.dropHeld name)) := by
  have hcontains : (s.bare st).held.contains name = (s.held[name]?).isSome := by
    rw [Std.ExtTreeMap.contains_eq_isSome_getElem?, bare_kept, Option.isSome_map]
  rw [Session.performOp, Unmanaged.Session.performOp, hcontains]
  have hm' := hm.takeKept name
  have hb : { s.bare st with held := (s.bare st).held.erase name } =
      { s with held := s.held.erase name }.bare st := by
    simp only [bare, map_erase]
  cases hn : s.held[name]? with
  | none =>
      rw [hb, erase_eq_self hn]
      exact hm.answers rfl
  | some v =>
      rw [hn] at hm'
      rw [hb]
      refine Mirrors.answers
        (s := { s with held := s.held.erase name }.onWorld (·.discard v)) ?_ rfl
      exact hm'.mirrored.discard

theorem Mirrors.performHeldSlots (hm : s.Mirrors [] st) (name : String) :
    Answers (s.performOp i (.heldSlots name)) ((s.bare st).performOp i (.heldSlots name)) := by
  rw [Session.performOp, Unmanaged.Session.performOp, bare_kept]
  cases s.held[name]? with
  | none => exact hm.answers rfl
  | some v => exact hm.answers rfl

theorem Mirrors.performHeldPut (hm : s.Mirrors [] st) (name : String) (index : Nat)
    (value : Operand) :
    Answers (s.performOp i (.heldPut name index value))
      ((s.bare st).performOp i (.heldPut name index value)) := by
  rw [Session.performOp, Unmanaged.Session.performOp]
  refine hm.withOperand i value fun {s h st} hm' => ?_
  obtain ⟨hput, hm''⟩ := hm'.putChild name index
  refine ⟨st, hput.trans ?_, hm''⟩
  have hflag : (s.putChild name index h).2.visible = (s.putChild name index h).2 := by
    unfold Session.putChild
    dsimp only
    split <;> rfl
  rw [hflag]

/-! Scopes -/

theorem Mirrors.answers_storeScope {e : EnvId} (hm : s.Mirrors [.share e] st)
    (dest : Option String) {a : Answer} (ha : a.visible = a) :
    Answers (s.storeScope dest e, a) ((s.bare st).assignScope dest e, a) := by
  obtain ⟨hstore, hm'⟩ := hm.storeScope dest
  rw [hstore]
  exact hm'.answers ha

/-- Without a scope in the register both fail, and what was handed over is dropped. -/
theorem Mirrors.withScope {l : List Holding} {handed : List Handle}
    {f : EnvId → Session × Answer} {g : EnvId → Unmanaged.Session × Answer}
    (hm : s.Mirrors (l ++ []) st) (hl : handed.flatMap Handle.holdings = l) (name : String)
    (hf : ∀ {e}, s.scopes[name]? = some e → Answers (f e) (g e)) :
    Answers (s.withScope name handed f) ((s.bare st).withScope name g) := by
  have hb : (s.bare st).scopes[name]? = s.scopes[name]? := rfl
  unfold Session.withScope Unmanaged.Session.withScope
  subst hl
  rw [hb]
  cases hn : s.scopes[name]? with
  | none =>
      exact Mirrors.answers (s := s.onWorld (·.dropAll handed)) hm.mirrored.dropAll rfl
  | some e => exact hf hn

theorem Mirrors.withParent {handed : List Handle} {f : Option EnvId → Session × Answer}
    {g : Option EnvId → Unmanaged.Session × Answer}
    (hm : s.Mirrors (handed.flatMap Handle.holdings ++ []) st) (parent : Option String)
    (hf : ∀ {p}, (∀ e ∈ p, ∃ env, s.world.envs[e]? = some env) → Answers (f p) (g p)) :
    Answers (s.withParent parent handed f) ((s.bare st).withParent parent g) := by
  cases parent with
  | none => exact hf fun e he => by cases he
  | some name =>
      refine hm.withScope rfl name fun {e} hn => hf fun p hp => ?_
      cases hp
      exact hm.env_of_scope hn

theorem Mirrors.performNewScope (hm : s.Mirrors [] st) (dest : String) (parent : Option String) :
    Answers (s.performOp i (.newScope dest parent))
      ((s.bare st).performOp i (.newScope dest parent)) := by
  rw [Session.performOp, Unmanaged.Session.performOp]
  have hnothing : s.Mirrors (([] : List Handle).flatMap Handle.holdings ++ []) st := hm
  refine hnothing.withParent parent fun {p} hp => ?_
  obtain ⟨henv, hm'⟩ := Mirrored.newEnv hm hp
  show Answers _ (Unmanaged.Session.assignScope { s.bare st with store := (st.newScope p).1 }
    (some dest) (st.newScope p).2, .done)
  rw [← henv]
  exact Mirrors.answers_storeScope (s := { s with world := (s.world.newEnv p).1 }) hm'
    (some dest) rfl

/-- Keeping a new scope, and showing it. -/
theorem answers_boundOutcome {p : Session × Except Failure EnvId}
    {q : Unmanaged.Session × Except Failure EnvId}
    (hy : Yields (fun e => [.share e]) id [] p q) (dest : Option String) :
    Answers (boundOutcome dest p) (Unmanaged.Session.boundOutcome dest q) := by
  cases hy with
  | error hm => exact hm.answers rfl
  | @ok s e st hm =>
      have htext : (s.bare st).store.printScope e = s.world.printEnv e := by
        refine (Mirrored.printEnv hm (hm.balanced.env_of_share ?_)).symm
        exact List.mem_cons_self
      show Answers _ (_, .text ((s.bare st).store.printScope e))
      rw [htext]
      exact hm.answers_storeScope dest rfl

theorem Mirrors.performBind (hm : s.Mirrors [] st) (dest : Option String) (params : List String)
    (rest : Option String) (args : List Operand) (parent : Option String) :
    Answers (s.performBind i dest params rest args parent)
      ((s.bare st).performBind i dest params rest args parent) := by
  unfold Session.performBind Unmanaged.Session.performBind
  refine hm.withHandles i args fun {s hs st} hm' => ?_
  refine hm'.withParent parent fun {p} hp => answers_boundOutcome (yields_lift ?_) dest
  exact hm'.mirrored.bind i params rest hp

theorem Mirrors.performDefine (hm : s.Mirrors [] st) (scope name : String) (value : Operand) :
    Answers (s.performOp i (.define scope name value))
      ((s.bare st).performOp i (.define scope name value)) := by
  rw [Session.performOp, Unmanaged.Session.performOp]
  refine hm.withOperand i value fun {s h st} hm' => ?_
  refine hm'.withScope (List.flatMap_singleton ..) scope fun {e} hn => ?_
  have hdefined : (s.onWorld (·.define e name h)).Mirrors [] (st.define e name h.target) :=
    Mirrored.define hm'.mirrored (hm'.env_of_scope hn)
  have hinfo := Mirrored.scopeInfo hdefined (hdefined.env_of_scope hn) name
  exact hdefined.answers (congrArg (fun info : ScopeInfo => Answer.number info.size) hinfo)

theorem Mirrors.performAssign (hm : s.Mirrors [] st) (scope name : String) (value : Operand) :
    Answers (s.performOp i (.assign scope name value))
      ((s.bare st).performOp i (.assign scope name value)) := by
  rw [Session.performOp, Unmanaged.Session.performOp]
  refine hm.withOperand i value fun {s h st} hm' => ?_
  refine hm'.withScope (List.flatMap_singleton ..) scope fun {e} hn => ?_
  exact answers_doneOutcome (yields_lift (hm'.mirrored.assign name (hm'.env_of_scope hn)))

theorem Mirrors.performLookup (hm : s.Mirrors [] st) (scope name : String)
    (dest : Option String) :
    Answers (s.performOp i (.lookup scope name dest))
      ((s.bare st).performOp i (.lookup scope name dest)) := by
  rw [Session.performOp, Unmanaged.Session.performOp]
  refine Mirrors.withScope hm rfl scope fun {e} hn => ?_
  obtain ⟨hfound, hm'⟩ := Mirrored.lookup hm name (hm.env_of_scope hn)
  rw [bare_store, ← hfound]
  generalize s.world.lookup e name = out at hm' ⊢
  obtain ⟨w, found⟩ := out
  cases found with
  | none => exact Mirrors.answers (s := { s with world := w }) hm' rfl
  | some h =>
      rw [← List.append_assoc] at hm'
      exact Mirrors.give (s := { s with world := w }) hm' dest

theorem Mirrors.performScopeInfo (hm : s.Mirrors [] st) (scope name : String) :
    Answers (s.performOp i (.scopeInfo scope name))
      ((s.bare st).performOp i (.scopeInfo scope name)) := by
  rw [Session.performOp, Unmanaged.Session.performOp]
  refine Mirrors.withScope hm rfl scope fun {e} hn => ?_
  exact hm.answers (congrArg Answer.scope (Mirrored.scopeInfo hm (hm.env_of_scope hn) name))

/-- A scope that is there can be shared. -/
theorem Mirrors.giveScope (hm : s.Mirrors [] st) (dest : String) {e : Option EnvId}
    (he : ∀ e' ∈ e, ∃ env, s.world.envs[e']? = some env) :
    Answers (s.giveScope dest e) ((s.bare st).giveScope dest e) := by
  cases e with
  | none => exact hm.answers rfl
  | some e =>
      have hm' : (s.onWorld (·.shareEnv e)).Mirrors [.share e] st :=
        Mirrored.shareEnv hm (he e rfl)
      exact hm'.answers_storeScope (some dest) rfl

theorem Mirrors.performParentScope (hm : s.Mirrors [] st) (scope dest : String) :
    Answers (s.performOp i (.parentScope scope dest))
      ((s.bare st).performOp i (.parentScope scope dest)) := by
  rw [Session.performOp, Unmanaged.Session.performOp]
  refine Mirrors.withScope hm rfl scope fun {e} hn => ?_
  obtain ⟨env, he⟩ := hm.env_of_scope hn
  rw [bare_store, he, hm.agrees.scopes e env he, Option.bind_some, Option.bind_some, bare_parent]
  exact hm.giveScope dest fun p hp => hm.balanced.env_of_parent he hp

theorem Mirrors.performClosureScope (hm : s.Mirrors [] st) (of dest : String) :
    Answers (s.performOp i (.closureScope of dest))
      ((s.bare st).performOp i (.closureScope of dest)) := by
  rw [Session.performOp, Unmanaged.Session.performOp, bare_slot, bare_store, ← hm.read of]
  exact hm.giveScope dest (Mirrored.env_of_read hm (hm.live of))

theorem Mirrors.performDropScope (hm : s.Mirrors [] st) (scope : String) :
    Answers (s.performOp i (.dropScope scope)) ((s.bare st).performOp i (.dropScope scope)) := by
  have hcontains : (s.bare st).scopes.contains scope = (s.scopes[scope]?).isSome :=
    Std.ExtTreeMap.contains_eq_isSome_getElem?
  rw [Session.performOp, Unmanaged.Session.performOp, hcontains]
  cases hn : s.scopes[scope]? with
  | none =>
      show Answers _ ({ s.bare st with scopes := s.scopes.erase scope }, _)
      rw [erase_eq_self hn]
      exact hm.answers rfl
  | some e =>
      refine Mirrors.answers
        (s := { s with scopes := s.scopes.erase scope }.onWorld (·.leaveEnv e)) ?_ rfl
      refine Mirrored.leaveEnv (Mirrored.permute hm ?_)
      have hp := (values_perm_of_getElem? hn).flatMap_right fun e => [Holding.share e]
      rw [List.perm_iff_count]
      intro x
      have h₁ := hp.count_eq x
      simp only [holdings, onWorld, List.flatMap_cons, List.cons_append, List.nil_append,
        List.count_append, List.count_cons] at h₁ ⊢
      omega

/-- Whatever the operation, a store without memory management gives the same answer. -/
theorem Mirrors.performOp (hm : s.Mirrors [] st) (i : HeapId) (op : Op) :
    Answers (s.performOp i op) ((s.bare st).performOp i op) := by
  cases op with
  | allocate value shared dest =>
      rw [Session.performOp, Unmanaged.Session.performOp]
      refine hm.withDraft i value fun hm' => ?_
      exact hm'.giveLift dest fun h => h.allocate _
  | list items dest =>
      rw [Session.performOp, Unmanaged.Session.performOp]
      refine hm.withHandles i items fun hm' => ?_
      exact hm'.giveLift dest fun h => h.list i
  | clone of dest => exact hm.performClone of dest
  | move of dest => exact hm.performMove of dest
  | null dest => exact Mirrors.give (h := none) hm dest
  | drop of => exact hm.performDrop of
  | get of position dest =>
      rw [Session.performOp, Unmanaged.Session.performOp, bare_slot]
      have hget := Mirrored.get hm (s.owned_handle [] of) position
      show Answers _ (Unmanaged.Session.giveOutcome dest
        ((s.bare st).lift (st, st.get (s.handle of).target position)))
      exact answers_giveOutcome (yields_lift hget) dest
  | length of => exact hm.performVectorSize of Answer.number fun _ => rfl
  | isEmpty of => exact hm.performVectorSize of (fun n => .flag (n = 0)) fun _ => rfl
  | info of => exact hm.answers (congrArg Answer.handle (hm.handleInfo of).symm)
  | read of => exact hm.performRead of
  | print of =>
      rw [Session.performOp, Unmanaged.Session.performOp, hm.read of, bare_slot]
      exact hm.answers rfl
  | sameCell a b =>
      rw [Session.performOp, Unmanaged.Session.performOp, bare_slot, bare_slot]
      exact hm.answers rfl
  | set of value =>
      rw [Session.performOp, Unmanaged.Session.performOp]
      refine hm.withDraft i value fun {s v st} hm' => ?_
      rw [bare_slot]
      exact answers_doneOutcome (yields_lift (hm'.mirrored.set (s.owned_handle [] of)))
  | write of position target =>
      rw [Session.performOp, Unmanaged.Session.performOp, bare_slot, bare_slot]
      have hwrite :=
        Mirrored.writeSlot hm (s.owned_handle [] of) (s.owned_handle [] target) position
      exact answers_doneOutcome (yields_lift hwrite)
  | push of target =>
      rw [Session.performOp, Unmanaged.Session.performOp, bare_slot, bare_slot]
      have hpush := Mirrored.push hm (s.owned_handle [] of) (s.owned_handle [] target)
      exact answers_doneOutcome (yields_lift hpush)
  | slots of => exact hm.performSlots of
  | slot of index target dest => exact hm.giveChild of index target dest
  | element of index => exact hm.answers (congrArg Answer.element (hm.element of index))
  | graph of => exact hm.answers (congrArg Answer.graph (hm.graph of))
  | hold name value => exact hm.performHold name value
  | dropHeld name => exact hm.performDropHeld name
  | heldSlots name => exact hm.performHeldSlots name
  | heldPut name index value => exact hm.performHeldPut name index value
  | collect shared => exact ⟨st, rfl, Mirrored.collectNow hm _⟩
  | heap => exact hm.answers (congrArg Answer.heap (hm.heapInfo i).symm)
  | objects => exact hm.answers rfl
  | roots => exact hm.answers rfl
  | newScope dest parent => exact hm.performNewScope dest parent
  | bind dest params rest args parent => exact hm.performBind dest params rest args parent
  | define scope name value => exact hm.performDefine scope name value
  | assign scope name value => exact hm.performAssign scope name value
  | lookup scope name dest => exact hm.performLookup scope name dest
  | scopeInfo scope name => exact hm.performScopeInfo scope name
  | parentScope scope dest => exact hm.performParentScope scope dest
  | closureScope of dest => exact hm.performClosureScope of dest
  | dropScope scope => exact hm.performDropScope scope
  | call of args dest =>
      rw [Session.performOp, Unmanaged.Session.performOp]
      refine hm.withHandles i args fun {s hs st} hm' => ?_
      rw [bare_slot]
      exact hm'.giveLift dest fun h => h.apply (s.owned_handle [] of) i evaluationSteps
  | eval scope expr dest =>
      rw [Session.performOp, Unmanaged.Session.performOp]
      refine Mirrors.withScope hm rfl scope fun {e} hn => ?_
      have hshare : .share e ∈ [] ++ s.holdings := share_mem_holdings hn
      exact answers_giveOutcome (yields_lift (Mirrored.eval hm hshare i evaluationSteps expr)) dest

end Session

end HybridHeap
