import HybridHeap.Proofs.Contents
import HybridHeap.Proofs.Values
import HybridHeap.Proofs.Unmanaged.Evaluate

/-!
Evaluation only adds to a store. A store grows by a new cell whose value refers to what is
already there, or by a new scope whose bindings do; nothing that was there before changes.
A scope is entered when all its parameters are bound: what happens to it on the way is not
seen by anyone.
-/

namespace HybridHeap

namespace Unmanaged

namespace Store

/-- What a slot refers to has been allocated. -/
def Knows (st : Store) (s : Slot) : Prop :=
  ∀ c ∈ s, c.number < st.nextCell

/-- What a value refers to is there. -/
structure Admits (st : Store) (v : Value Slot) : Prop where
  targets : ∀ d ∈ v.targets, d.number < st.nextCell
  env : ∀ e ∈ v.env?, e < st.nextEnv

/-- What a scope with the number `e` refers to is there; its parent is older. -/
structure AdmitsScope (st : Store) (e : EnvId) (sc : Scope) : Prop where
  parent : ∀ p ∈ sc.parent, p < e
  bindings : ∀ (name : String) (s : Slot), sc.bindings[name]? = some s → st.Knows s

/-- Cells and scopes have numbers that were given out, and refer to what is there. -/
structure Closed (st : Store) : Prop where
  cells : ∀ (c : CellId) (v : Value Slot), st.cells[c]? = some v →
    c.number < st.nextCell ∧ st.Admits v
  scopes : ∀ (e : EnvId) (sc : Scope), st.scopes[e]? = some sc →
    e < st.nextEnv ∧ st.AdmitsScope e sc

/-- The store with one scope more. -/
def enter (st : Store) (sc : Scope) : Store :=
  { st with scopes := st.scopes.insert st.nextEnv sc, nextEnv := st.nextEnv + 1 }

/-- The second store is the first with new cells and scopes. -/
inductive Grows (st₀ : Store) : Store → Prop
  | refl : Grows st₀ st₀
  | cell {st : Store} {c : CellId} {v : Value Slot} (hg : Grows st₀ st)
      (hc : c.number = st.nextCell) (hv : st.Admits v) :
      Grows st₀ { st with cells := st.cells.insert c v, nextCell := st.nextCell + 1 }
  | scope {st : Store} {sc : Scope} (hg : Grows st₀ st) (hs : st.AdmitsScope st.nextEnv sc) :
      Grows st₀ (st.enter sc)

variable {st st₀ st₁ st₂ : Store} {s : Slot} {v : Value Slot} {sc : Scope} {e : EnvId}
  {i : HeapId}

namespace Grows

theorem trans (hg : st₀.Grows st₁) (hg' : st₁.Grows st₂) : st₀.Grows st₂ := by
  induction hg' with
  | refl => exact hg
  | cell _ hc hv ih => exact .cell ih hc hv
  | scope _ hs ih => exact .scope ih hs

theorem numbers (hg : st₀.Grows st) :
    st₀.nextCell ≤ st.nextCell ∧ st₀.nextEnv ≤ st.nextEnv := by
  induction hg with
  | refl => exact ⟨Nat.le_refl _, Nat.le_refl _⟩
  | cell _ _ _ ih => exact ⟨Nat.le_succ_of_le ih.1, ih.2⟩
  | scope _ _ ih => exact ⟨ih.1, Nat.le_succ_of_le ih.2⟩

theorem knows (hg : st₀.Grows st) (hs : st₀.Knows s) : st.Knows s :=
  fun c hc => Nat.lt_of_lt_of_le (hs c hc) hg.numbers.1

theorem admits (hg : st₀.Grows st) (hv : st₀.Admits v) : st.Admits v where
  targets d hd := Nat.lt_of_lt_of_le (hv.targets d hd) hg.numbers.1
  env e he := Nat.lt_of_lt_of_le (hv.env e he) hg.numbers.2

theorem admitsScope (hg : st₀.Grows st) (hs : st₀.AdmitsScope e sc) : st.AdmitsScope e sc where
  parent := hs.parent
  bindings name s hn := hg.knows (hs.bindings name s hn)

/-- Cells that were there keep their values. -/
theorem getElem?_cells (hg : st₀.Grows st) {c : CellId} (hc : c.number < st₀.nextCell) :
    st.cells[c]? = st₀.cells[c]? := by
  induction hg with
  | refl => rfl
  | @cell st d v hg hd hv ih =>
      have hne : d ≠ c := by
        rintro rfl
        have := hg.numbers.1
        omega
      rw [Std.ExtTreeMap.getElem?_insert, if_neg (by simpa using hne)]
      exact ih
  | scope _ _ ih => exact ih

/-- Scopes that were there keep their bindings. -/
theorem getElem?_scopes (hg : st₀.Grows st) (he : e < st₀.nextEnv) :
    st.scopes[e]? = st₀.scopes[e]? := by
  induction hg with
  | refl => rfl
  | cell _ _ _ ih => exact ih
  | @scope st sc hg hs ih =>
      have hne : st.nextEnv ≠ e := Nat.ne_of_gt (Nat.lt_of_lt_of_le he hg.numbers.2)
      rw [enter, Std.ExtTreeMap.getElem?_insert, if_neg (by simpa using hne)]
      exact ih

theorem closed (hg : st₀.Grows st) (hc : st₀.Closed) : st.Closed := by
  induction hg with
  | refl => exact hc
  | @cell st d v hg hd hv ih =>
      have hstep : st.Grows { st with
          cells := st.cells.insert d v, nextCell := st.nextCell + 1 } := .cell .refl hd hv
      constructor
      · intro c v' hf
        rcases eq_or_of_getElem?_insert hf with ⟨rfl, rfl⟩ | hf
        · exact ⟨hd ▸ Nat.lt_succ_self _, hstep.admits hv⟩
        · obtain ⟨hlt, hadmits⟩ := ih.cells c v' hf
          exact ⟨Nat.lt_succ_of_lt hlt, hstep.admits hadmits⟩
      · intro e sc he
        obtain ⟨hlt, hadmits⟩ := ih.scopes e sc he
        exact ⟨hlt, hstep.admitsScope hadmits⟩
  | @scope st sc hg hs ih =>
      have hstep : st.Grows (st.enter sc) := .scope .refl hs
      constructor
      · intro c v hf
        obtain ⟨hlt, hadmits⟩ := ih.cells c v hf
        exact ⟨hlt, hstep.admits hadmits⟩
      · intro e sc' he
        rcases eq_or_of_getElem?_insert he with ⟨rfl, rfl⟩ | he
        · exact ⟨Nat.lt_succ_self _, hstep.admitsScope hs⟩
        · obtain ⟨hlt, hadmits⟩ := ih.scopes e sc' he
          exact ⟨Nat.lt_succ_of_lt hlt, hstep.admitsScope hadmits⟩

end Grows

/-- An operation that adds to the store, and whose result, if there is one, is as `ok`
says. -/
structure Extends {α : Type} (ok : Store → α → Prop) (st : Store)
    (out : Store × Except Failure α) : Prop where
  grows : st.Grows out.1
  outcome : ∀ a, out.2 = .ok a → ok out.1 a

section Operations

variable {args items : List Slot} {α : Type} {ok : Store → α → Prop}

theorem extends_error (hg : st₀.Grows st) (f : Failure) :
    Extends ok st₀ (st, .error f) :=
  ⟨hg, fun _ ha => by cases ha⟩

theorem extends_ok (hg : st₀.Grows st) {a : α} (ha : ok st a) : Extends ok st₀ (st, .ok a) :=
  ⟨hg, fun b hb => by cases hb; exact ha⟩

theorem knows_none (st : Store) : st.Knows none :=
  fun _ hc => by cases hc

theorem admits_scalar (st : Store) (v : Scalar) : st.Admits (.scalar v) where
  targets _ hd := by cases hd
  env _ he := by cases he

theorem admits_of_children (he : v.env? = none) (hk : ∀ s ∈ v.children, st.Knows s) :
    st.Admits v where
  targets d hd := by
    obtain ⟨s, hs, rfl⟩ := List.mem_filterMap.mp hd
    exact hk (some d) hs d rfl
  env e h := by
    rw [he] at h
    cases h

theorem Closed.readCell (hc : st.Closed) (c : CellId) : st.Admits (st.readCell c) := by
  rw [Store.readCell]
  cases hf : st.cells[c]? with
  | none => exact st.admits_scalar .null
  | some v => exact (hc.cells c v hf).2

theorem Closed.read (hc : st.Closed) (s : Slot) : st.Admits (st.read s) := by
  cases s with
  | none => exact st.admits_scalar .null
  | some c => exact hc.readCell c

theorem extends_allocate (hv : st.Admits v) (i : HeapId) :
    Extends Knows st (st.allocate i v) := by
  unfold allocate
  split
  · split
    · refine extends_ok (.cell .refl rfl hv) fun c hc => ?_
      cases hc
      exact Nat.lt_succ_self _
    · exact extends_ok .refl st.knows_none
  · exact extends_error .refl _

theorem extends_consAll (hi : ∀ s ∈ items, st.Knows s) (hs : st.Knows s) (i : HeapId) :
    Extends Knows st (st.consAll i s items) := by
  induction items generalizing st s with
  | nil => exact extends_ok .refl hs
  | cons item earlier ih =>
      have hpair : st.Admits (.pair item s) := by
        refine admits_of_children rfl fun t ht => ?_
        rcases List.mem_cons.mp ht with rfl | ht
        · exact hi t List.mem_cons_self
        · rw [List.mem_singleton.mp ht]
          exact hs
      obtain ⟨hg, ho⟩ := extends_allocate hpair i
      rw [consAll]
      generalize st.allocate i (.pair item s) = out at hg ho ⊢
      obtain ⟨st', outcome⟩ := out
      cases outcome with
      | error f => exact extends_error hg f
      | ok t =>
          have hrest := ih (fun u hu => hg.knows (hi u (List.mem_cons_of_mem _ hu))) (ho t rfl)
          exact ⟨hg.trans hrest.grows, hrest.outcome⟩

theorem extends_list (hi : ∀ s ∈ items, st.Knows s) (i : HeapId) :
    Extends Knows st (st.list i items) :=
  extends_consAll (fun s hs => hi s (List.mem_reverse.mp hs)) st.knows_none i

theorem Closed.knows_get (hc : st.Closed) (s : Slot) (p : Position) :
    st.Knows ((st.get s p).toOption.getD none) := by
  cases s with
  | none => exact st.knows_none
  | some c =>
      rw [Store.get]
      cases hg : (st.readCell c).get p with
      | error f => exact st.knows_none
      | ok t =>
          intro d hd
          have hd' : t = some d := hd
          refine (hc.readCell c).targets d ?_
          obtain ⟨l₁, l₂, hchildren, -⟩ := Value.children_replace hg
          rw [Value.targets, hchildren]
          exact List.mem_filterMap.mpr
            ⟨some d, List.mem_append_right _ (hd' ▸ List.mem_cons_self), rfl⟩

theorem Closed.knows_lookup (hc : st.Closed) {name : String} (hl : st.lookup e name = some s) :
    st.Knows s := by
  obtain ⟨d, -, hlocal⟩ := Option.bind_eq_some_iff.mp hl
  obtain ⟨sc, hd, hbinding⟩ := Option.bind_eq_some_iff.mp hlocal
  exact (hc.scopes d sc hd).2.bindings name s hbinding

theorem extends_callPrimitive (hc : st.Closed) (ha : ∀ s ∈ args, st.Knows s) (i : HeapId)
    (p : Primitive) : Extends Knows st (st.callPrimitive i p args) := by
  have harg : ∀ n, st.Knows (args.getD n none) := by
    intro n
    rw [List.getD_eq_getElem?_getD]
    cases hn : args[n]? with
    | none => exact st.knows_none
    | some s => exact ha s (List.mem_of_getElem? hn)
  cases p with
  | nothing => exact extends_ok .refl st.knows_none
  | identity => exact extends_ok .refl (harg 0)
  | add => exact extends_allocate (st.admits_scalar _) i
  | cons =>
      refine extends_allocate (admits_of_children rfl fun s hs => ?_) i
      rcases List.mem_cons.mp hs with rfl | hs
      · exact harg 0
      · rw [List.mem_singleton.mp hs]
        exact harg 1
  | car => exact extends_ok .refl (hc.knows_get _ .first)
  | cdr => exact extends_ok .refl (hc.knows_get _ .second)
  | list => exact extends_list ha i
  | vector =>
      refine extends_allocate (admits_of_children rfl fun s hs => ?_) i
      exact ha s (by simpa [Value.children] using hs)
  | gc => exact extends_ok .refl st.knows_none

end Operations

section Scopes

variable {items : List Slot} {params : List (String × Slot)}

theorem allocate_enter (st : Store) (sc : Scope) (i : HeapId) (v : Value Slot) :
    (st.enter sc).allocate i v = ((st.allocate i v).1.enter sc, (st.allocate i v).2) := by
  have hconfigs : (st.enter sc).configs = st.configs := rfl
  simp only [allocate, hconfigs]
  split
  · split <;> rfl
  · rfl

/-- A list does not depend on the scopes. -/
theorem consAll_enter (st : Store) (sc : Scope) (i : HeapId) (s : Slot) (items : List Slot) :
    (st.enter sc).consAll i s items =
      ((st.consAll i s items).1.enter sc, (st.consAll i s items).2) := by
  induction items generalizing st s with
  | nil => rfl
  | cons item earlier ih =>
      simp only [consAll, allocate_enter]
      generalize st.allocate i (.pair item s) = out
      obtain ⟨st', outcome⟩ := out
      cases outcome with
      | error f => rfl
      | ok t => exact ih st' t

theorem nextEnv_allocate (st : Store) (i : HeapId) (v : Value Slot) :
    (st.allocate i v).1.nextEnv = st.nextEnv := by
  unfold allocate
  split
  · split <;> rfl
  · rfl

theorem nextEnv_consAll (st : Store) (i : HeapId) (s : Slot) (items : List Slot) :
    (st.consAll i s items).1.nextEnv = st.nextEnv := by
  induction items generalizing st s with
  | nil => rfl
  | cons item earlier ih =>
      have hfirst := st.nextEnv_allocate i (.pair item s)
      rw [consAll]
      generalize st.allocate i (.pair item s) = out at hfirst ⊢
      obtain ⟨st', outcome⟩ := out
      cases outcome with
      | error f => exact hfirst
      | ok t => exact (ih st' t).trans hfirst

theorem define_enter (st : Store) (sc : Scope) (name : String) (s : Slot) :
    (st.enter sc).define st.nextEnv name s =
      st.enter { sc with bindings := sc.bindings.insert name s } := by
  simp only [define, enter]
  congr 1
  apply Std.ExtTreeMap.ext_getElem?
  intro d
  simp only [Std.ExtTreeMap.getElem?_modify, Std.ExtTreeMap.getElem?_insert,
    Std.compare_eq_iff_eq]
  split
  · rename_i hd
    subst hd
    simp
  · rfl

theorem AdmitsScope.insert (hs : st.AdmitsScope e sc) (name : String) (hk : st.Knows s) :
    st.AdmitsScope e { sc with bindings := sc.bindings.insert name s } where
  parent := hs.parent
  bindings name' s' hn := by
    rcases eq_or_of_getElem?_insert hn with ⟨-, rfl⟩ | hn
    · exact hk
    · exact hs.bindings name' s' hn

/-- Binding parameters, as far as the scope is concerned. -/
theorem defineAll_enter (hs : st.AdmitsScope st.nextEnv sc) (hp : ∀ p ∈ params, st.Knows p.2) :
    ∃ sc', (st.enter sc).defineAll st.nextEnv params = st.enter sc' ∧
      st.AdmitsScope st.nextEnv sc' := by
  induction params generalizing sc with
  | nil => exact ⟨sc, rfl, hs⟩
  | cons p params ih =>
      rw [defineAll, define_enter]
      exact ih (hs.insert p.1 (hp p List.mem_cons_self)) fun q hq =>
        hp q (List.mem_cons_of_mem _ hq)

/-- A call enters one scope, after the cells of the list for its rest parameter. -/
theorem extends_bind {args : List Slot} (ha : ∀ s ∈ args, st.Knows s) {parent : Option EnvId}
    (hp : ∀ p ∈ parent, p < st.nextEnv) (i : HeapId) (names : List String)
    (rest : Option String) :
    Extends (fun st e => e < st.nextEnv) st (st.bind i names rest args parent) := by
  unfold bind
  cases World.arity names rest args.length with
  | error f => exact extends_error .refl _
  | ok u =>
      have hempty : st.AdmitsScope st.nextEnv { parent, bindings := ∅ } :=
        ⟨hp, fun name s hn => by simp at hn⟩
      have hparams : ∀ p ∈ names.zip args, st.Knows p.2 := fun p hp =>
        ha p.2 (List.of_mem_zip hp).2
      obtain ⟨sc, hdefined, hsc⟩ := defineAll_enter hempty hparams
      change (st.newScope parent).1.defineAll (st.newScope parent).2 _ = _ at hdefined
      dsimp only
      rw [hdefined]
      cases rest with
      | none => exact extends_ok (.scope .refl hsc) (Nat.lt_succ_self _)
      | some name =>
          obtain ⟨hg, ho⟩ : Extends Knows st (st.list i (args.drop names.length)) :=
            extends_list (fun s hs => ha s (List.mem_of_mem_drop hs)) i
          have hnext := st.nextEnv_consAll i none (args.drop names.length).reverse
          rw [list, consAll_enter]
          rw [list] at hg ho
          generalize st.consAll i none (args.drop names.length).reverse = out at hg ho hnext ⊢
          obtain ⟨st', outcome⟩ := out
          have hsc' : st'.AdmitsScope st'.nextEnv sc := by
            rw [hnext]
            exact hg.admitsScope hsc
          cases outcome with
          | error f => exact extends_error (.scope hg hsc') f
          | ok s =>
              have hdefine := st'.define_enter sc name s
              rw [hnext] at hdefine
              change Extends _ st ((st'.enter sc).define st.nextEnv name s, .ok st.nextEnv)
              rw [hdefine]
              refine extends_ok (.scope hg (hsc'.insert name (ho s rfl))) ?_
              exact hnext ▸ Nat.lt_succ_self _

end Scopes

end Store

namespace Frame

/-- What a frame keeps is there. -/
def Known (st : Store) : Frame → Prop
  | operator env _ => env < st.nextEnv
  | argument env procedure done _ =>
    env < st.nextEnv ∧ st.Knows procedure ∧ ∀ s ∈ done, st.Knows s
  | back => True

theorem Known.mono {st st' : Store} {frame : Frame} (hk : frame.Known st) (hg : st.Grows st') :
    frame.Known st' := by
  cases frame with
  | operator env args => exact Nat.lt_of_lt_of_le hk hg.numbers.2
  | argument env procedure done rest =>
      obtain ⟨he, hp, hd⟩ := hk
      exact ⟨Nat.lt_of_lt_of_le he hg.numbers.2, hg.knows hp, fun s hs => hg.knows (hd s hs)⟩
  | back => trivial

end Frame

/-- What a task is about is there. -/
def Task.Known (st : Store) : Task → Prop
  | eval env _ => env < st.nextEnv
  | apply procedure args => st.Knows procedure ∧ ∀ s ∈ args, st.Knows s
  | finish (.ok s) => st.Knows s
  | finish (.error _) => True

namespace Evaluation

/-- An evaluation on a closed store that refers to what is there. -/
structure Known (s : Evaluation) : Prop where
  closed : s.store.Closed
  task : s.task.Known s.store
  frames : ∀ frame ∈ s.frames, frame.Known s.store

/-- The evaluation goes on, and has only added to the store. -/
structure Extends (st : Store) (s : Evaluation) : Prop where
  grows : st.Grows s.store
  known : s.Known

variable {st : Store} {frames : List Frame} {i : HeapId}

theorem extends_finish {out : Store × Except Failure Slot} (ho : Store.Extends Store.Knows st out)
    (hc : st.Closed) (hf : ∀ frame ∈ frames, frame.Known st) :
    Extends st { store := out.1, task := .finish out.2, frames } := by
  obtain ⟨st', outcome⟩ := out
  obtain ⟨hg, hk⟩ := ho
  refine ⟨hg, hg.closed hc, ?_, fun frame hm => (hf frame hm).mono hg⟩
  cases outcome with
  | ok s => exact hk s rfl
  | error f => trivial

theorem extends_eval (hc : st.Closed) {env : EnvId} (he : env < st.nextEnv)
    (hf : ∀ frame ∈ frames, frame.Known st) (e : Expr) :
    Extends st (stepEval i st env e frames) := by
  cases e with
  | int n => exact extends_finish (Store.extends_allocate (st.admits_scalar _) i) hc hf
  | var name =>
      rw [stepEval]
      cases hl : st.lookup env name with
      | none => exact ⟨.refl, hc, trivial, hf⟩
      | some s => exact ⟨.refl, hc, hc.knows_lookup hl, hf⟩
  | lambda params rest body =>
      have hclosure : st.Admits (.closure (.lambda { params, rest, body }) env) :=
        { targets := fun d hd => by cases hd
          env := fun d hd => by
            cases hd
            exact he }
      exact extends_finish (Store.extends_allocate hclosure i) hc hf
  | call callee args =>
      refine ⟨.refl, hc, he, fun frame hm => ?_⟩
      rcases List.mem_cons.mp hm with rfl | hm
      · exact he
      · exact hf frame hm

theorem extends_apply (hc : st.Closed) {procedure : Slot} {args : List Slot}
    (ha : ∀ s ∈ args, st.Knows s) (hf : ∀ frame ∈ frames, frame.Known st) :
    Extends st (stepApply i st procedure args frames) := by
  have hread := hc.read procedure
  have hfail : ∀ f, Extends st { store := st, task := .finish (.error f), frames } :=
    fun f => ⟨.refl, hc, trivial, hf⟩
  rw [stepApply]
  generalize st.read procedure = v at hread ⊢
  cases v with
  | scalar v =>
      cases v with
      | primitive p => exact extends_finish (Store.extends_callPrimitive hc ha i p) hc hf
      | _ => exact hfail _
  | pair a b => exact hfail _
  | vector es => exact hfail _
  | closure code env =>
      cases code with
      | lambda l =>
          have hparent : ∀ p ∈ some env, p < st.nextEnv := hread.env
          obtain ⟨hg, ho⟩ := Store.extends_bind ha hparent i l.params l.rest
          dsimp only
          generalize st.bind i l.params l.rest args (some env) = out at hg ho ⊢
          obtain ⟨st', outcome⟩ := out
          have hframes : ∀ frame ∈ frames, frame.Known st' := fun frame hm => (hf frame hm).mono hg
          cases outcome with
          | error f => exact ⟨hg, hg.closed hc, trivial, hframes⟩
          | ok scope =>
              refine ⟨hg, hg.closed hc, ho scope rfl, fun frame hm => ?_⟩
              rcases List.mem_cons.mp hm with rfl | hm
              · trivial
              · exact hframes frame hm
      | _ => exact hfail _

theorem extends_proceed (hc : st.Closed) {env : EnvId} (he : env < st.nextEnv)
    {procedure : Slot} (hp : st.Knows procedure) {done : List Slot}
    (hd : ∀ s ∈ done, st.Knows s) (rest : List Expr) (hf : ∀ frame ∈ frames, frame.Known st) :
    Extends st (proceed st env procedure done rest frames) := by
  cases rest with
  | nil =>
      refine ⟨.refl, hc, ⟨hp, fun s hs => hd s (List.mem_reverse.mp hs)⟩, fun frame hm => ?_⟩
      rcases List.mem_cons.mp hm with rfl | hm
      · trivial
      · exact hf frame hm
  | cons e rest =>
      refine ⟨.refl, hc, he, fun frame hm => ?_⟩
      rcases List.mem_cons.mp hm with rfl | hm
      · exact ⟨he, hp, hd⟩
      · exact hf frame hm

theorem extends_stepFinish (hc : st.Closed) {outcome : Except Failure Slot}
    (ho : (Task.finish outcome).Known st) {frame : Frame} (hk : frame.Known st)
    (hf : ∀ frame ∈ frames, frame.Known st) :
    Extends st (stepFinish st outcome frame frames) := by
  have hpass : Extends st { store := st, task := .finish outcome, frames } := ⟨.refl, hc, ho, hf⟩
  cases outcome with
  | error f => cases frame <;> exact hpass
  | ok s =>
      cases frame with
      | operator env args =>
          exact extends_proceed hc hk ho (fun _ hs => by cases hs) args hf
      | argument env procedure done rest =>
          obtain ⟨he, hp, hd⟩ := hk
          refine extends_proceed hc he hp (fun t ht => ?_) rest hf
          rcases List.mem_cons.mp ht with rfl | ht
          · exact ho
          · exact hd t ht
      | back => exact hpass

/-- An evaluation only adds to the store, and gives back something that is there. -/
theorem Known.run {s : Evaluation} (hk : s.Known) (i : HeapId) (limit : Nat) :
    Store.Extends Store.Knows s.store (Evaluation.run i limit s) := by
  induction limit generalizing s with
  | zero => exact Store.extends_error .refl _
  | succ limit ih =>
      obtain ⟨st, task, frames⟩ := s
      obtain ⟨hc, ht, hf⟩ := hk
      -- a step that continues goes on with the induction
      have hgo : ∀ {s' : Evaluation}, Extends st s' →
          Store.Extends Store.Knows st (Evaluation.run i limit s') := fun hs =>
        ⟨hs.grows.trans (ih hs.known).grows, (ih hs.known).outcome⟩
      cases task with
      | eval env e => exact hgo (extends_eval hc ht hf e)
      | apply procedure args => exact hgo (extends_apply hc ht.2 hf)
      | finish outcome =>
          cases frames with
          | nil =>
              cases outcome with
              | ok s => exact Store.extends_ok .refl ht
              | error f => exact Store.extends_error .refl f
          | cons frame frames =>
              exact hgo (extends_stepFinish hc ht (hf frame List.mem_cons_self) fun frame' hm =>
                hf frame' (List.mem_cons_of_mem _ hm))

end Evaluation

namespace Store

variable {st : Store}

theorem extends_eval (hc : st.Closed) {env : EnvId} (he : env < st.nextEnv) (i : HeapId)
    (limit : Nat) (e : Expr) : Extends Knows st (st.eval i limit env e) :=
  Evaluation.Known.run (s := { store := st, task := .eval env e, frames := [] })
    ⟨hc, he, fun _ hm => by cases hm⟩ i limit

theorem extends_apply (hc : st.Closed) {procedure : Slot} {args : List Slot}
    (hp : st.Knows procedure) (ha : ∀ s ∈ args, st.Knows s) (i : HeapId) (limit : Nat) :
    Extends Knows st (st.apply i limit procedure args) :=
  Evaluation.Known.run (s := { store := st, task := .apply procedure args, frames := [] })
    ⟨hc, ⟨hp, ha⟩, fun _ hm => by cases hm⟩ i limit

end Store

end Unmanaged

end HybridHeap
