import HybridHeap.Proofs.Mirror.Cells

/-!
Operations on environments, in a world and in a store. A name is looked up along the
same chain of scopes in both, since an environment that exists keeps its parent alive.
-/

namespace HybridHeap

open Unmanaged (Store)

@[simp] theorem World.envs_root (w : World) (s : Slot) : (w.root s).1.envs = w.envs := by
  unfold World.root
  split
  · rfl
  · split <;> rfl

theorem bare_parent (env : Environment) : env.bare.parent = env.parent := rfl

theorem bare_bindings (env : Environment) :
    env.bare.bindings = env.bindings.map fun _ h => h.target := rfl

@[simp] theorem getElem?_bare (env : Environment) (name : String) :
    env.bare.bindings[name]? = (env.bindings[name]?).map Handle.target := by
  rw [bare_bindings, Std.ExtTreeMap.getElem?_map]

@[simp] theorem contains_bare (env : Environment) (name : String) :
    env.bare.bindings.contains name = env.bindings.contains name := by
  rw [bare_bindings, Std.ExtTreeMap.contains_map]

/-- The handles for the parameters, and those left over. -/
theorem holdings_zip {params : List String} {args : List Handle}
    (h : params.length ≤ args.length) :
    ((params.zip args).flatMap fun p => p.2.holdings) ++
      (args.drop params.length).flatMap Handle.holdings = args.flatMap Handle.holdings := by
  induction params generalizing args with
  | nil => rfl
  | cons name params ih =>
      cases args with
      | nil => cases h
      | cons arg args =>
          rw [List.zip_cons_cons, List.flatMap_cons, List.length_cons, List.drop_succ_cons,
            List.append_assoc, ih (Nat.le_of_succ_le_succ h), List.flatMap_cons]

theorem arity_eq_ok {params : List String} {rest : Option String} {got : Nat}
    (h : World.arity params rest got = .ok ()) :
    params.length ≤ got ∧ (rest = none → got ≤ params.length) := by
  unfold World.arity at h
  split at h
  · cases h
  · split at h
    · cases h
    · rename_i h₁ h₂
      refine ⟨Nat.le_of_not_lt h₁, fun hr => ?_⟩
      apply Nat.le_of_not_lt
      exact fun hlt => h₂ ⟨hlt, hr⟩

namespace Mirrored

variable {w : World} {st : Store} {held held' : List Holding} {i : HeapId} {h : Handle}
  {e : EnvId} {name : String}

theorem shareEnv (hm : Mirrored ⟨w, held, none⟩ st) (he : ∃ env, w.envs[e]? = some env) :
    Mirrored ⟨w.shareEnv e, .share e :: held, none⟩ st := by
  obtain ⟨env, he⟩ := he
  refine ⟨hm.reached.step (.shareEnv he), ?_⟩
  rw [World.shareEnv, World.modifyEnv, modify_eq_insert he]
  exact hm.agrees.insertEnv (hm.agrees.scopes e env he)

theorem newEnv {parent : Option EnvId} (hm : Mirrored ⟨w, held, none⟩ st)
    (hp : ∀ p ∈ parent, ∃ env, w.envs[p]? = some env) :
    (w.newEnv parent).2 = (st.newScope parent).2 ∧
      Mirrored ⟨(w.newEnv parent).1, .share (w.newEnv parent).2 :: held, none⟩
        (st.newScope parent).1 := by
  have hnext : (w.newEnv parent).2 = w.nextEnv := by
    cases parent <;> rfl
  refine ⟨hnext.trans hm.agrees.nextEnv, ?_⟩
  rw [hnext]
  refine ⟨hm.reached.step (.newEnv hp), ?_⟩
  -- sharing the parent makes no difference to the store
  have ha : ∀ {w' : World}, w'.Agrees st →
      ({ w' with
          envs := w'.envs.insert w'.nextEnv { parent, bindings := ∅, owners := 1 },
          nextEnv := w'.nextEnv + 1 } : World).Agrees (st.newScope parent).1 := by
    intro w' ha
    rw [Store.newScope, ← ha.nextEnv]
    exact ha.putEnv w'.nextEnv { parent, bindings := ∅, owners := 1 } rfl
  cases parent with
  | none => exact ha hm.agrees
  | some p => exact ha (hm.shareEnv (hp p rfl)).agrees

/-- The scope of a closure that can be read exists. -/
theorem env_of_read (hm : Mirrored ⟨w, held, none⟩ st) {s : Slot} (hl : ∀ c ∈ s, w.Live c) :
    ∀ e ∈ (w.readSlot s).env?, ∃ env, w.envs[e]? = some env := by
  intro e he
  cases s with
  | none => cases he
  | some c =>
      obtain ⟨heap, hi, cell, hf⟩ := hl c rfl
      apply hm.balanced.env_of_closure hi hf
      simpa [World.readSlot, World.readCell, hi, Heap.read, hf] using he

/-- The handle that was bound before comes out. -/
theorem rebind (hm : Mirrored ⟨w, h.holdings ++ held, none⟩ st) (name : String)
    (he : ∃ env, w.envs[e]? = some env) :
    Mirrored ⟨(w.rebind e name h).1, (w.rebind e name h).2.holdings ++ held, none⟩
      (st.define e name h.target) := by
  obtain ⟨env, he⟩ := he
  refine ⟨hm.reached.step (.rebind he), ?_⟩
  have hscope := hm.agrees.scopes e env he
  have hbare : ({ env with bindings := env.bindings.insert name h } : Environment).bare =
      { env.bare with bindings := env.bare.bindings.insert name h.target } :=
    congrArg (Unmanaged.Scope.mk env.parent) (map_insert env.bindings name h Handle.target)
  simp only [World.rebind, World.modifyEnv, modify_eq_insert he, Store.define,
    modify_eq_insert hscope, ← hbare]
  exact hm.agrees.putEnv e _ hm.agrees.nextEnv

theorem define (hm : Mirrored ⟨w, h.holdings ++ held, none⟩ st)
    (he : ∃ env, w.envs[e]? = some env) :
    Mirrored ⟨w.define e name h, held, none⟩ (st.define e name h.target) :=
  (hm.rebind name he).drop

/-- Both look along the same chain of scopes. -/
theorem nearest (hm : Mirrored ⟨w, held, none⟩ st) (name : String)
    (he : ∃ env, w.envs[e]? = some env) : w.nearest name e = st.nearest name e := by
  -- a parent has a smaller number than its child
  induction e using Nat.strongRecOn with
  | ind e ih =>
      obtain ⟨env, he⟩ := he
      rw [World.nearest, Store.nearest, he, hm.agrees.scopes e env he]
      dsimp only
      rw [contains_bare, bare_parent]
      split
      · rfl
      · cases hp : env.parent with
        | none => rfl
        | some p =>
            dsimp only
            split
            · rename_i hlt
              exact ih p hlt (hm.balanced.env_of_parent he hp)
            · rfl

end Mirrored

/-- The scope found binds the name. -/
theorem World.nearest_eq_some {w : World} {name : String} {e s : EnvId}
    (h : w.nearest name e = some s) :
    ∃ env x, w.envs[s]? = some env ∧ env.bindings[name]? = some x := by
  induction e using Nat.strongRecOn with
  | ind e ih =>
      rw [World.nearest] at h
      cases he : w.envs[e]? with
      | none =>
          rw [he] at h
          cases h
      | some env =>
          rw [he] at h
          dsimp only at h
          split at h
          · rename_i hc
            cases h
            rw [Std.ExtTreeMap.contains_eq_isSome_getElem?, Option.isSome_iff_exists] at hc
            obtain ⟨x, hx⟩ := hc
            exact ⟨env, x, he, hx⟩
          · split at h
            · cases h
            · split at h
              · rename_i hlt
                exact ih _ hlt h
              · cases h

namespace Mirrored

variable {w : World} {st : Store} {held held' : List Holding} {i : HeapId} {h : Handle}
  {e : EnvId} {name : String}

/-- A bound handle refers to a live cell or to none. -/
theorem live_of_bound (hm : Mirrored ⟨w, held, none⟩ st) {env : Environment}
    (he : w.envs[e]? = some env) (hx : env.bindings[name]? = some h) :
    ∀ c ∈ h.target, w.Live c := by
  intro c hc
  obtain ⟨r, hr, rfl⟩ := Option.map_eq_some_iff.mp hc
  subst hr
  have hroot : r ∈ env.roots := Environment.mem_roots.mpr ⟨name, hx⟩
  exact hm.balanced.live_of_mem (List.mem_append_right _ (World.mem_bound.mpr ⟨e, env, he, hroot⟩))

/-- A new root for what a name is bound to. -/
theorem lookup (hm : Mirrored ⟨w, held, none⟩ st) (name : String)
    (he : ∃ env, w.envs[e]? = some env) :
    (w.lookup e name).2.map Handle.target = st.lookup e name ∧
      Mirrored ⟨(w.lookup e name).1, ((w.lookup e name).2.getD none).holdings ++ held, none⟩
        st := by
  unfold World.lookup Store.lookup
  rw [← hm.nearest name he]
  cases hn : w.nearest name e with
  | none => exact ⟨rfl, hm⟩
  | some s =>
      obtain ⟨env, x, hs, hx⟩ := World.nearest_eq_some hn
      have hlocal : w.localBinding? s name = some x := by
        simp [World.localBinding?, hs, hx]
      have hstore : st.localBinding? s name = some x.target := by
        simp [Store.localBinding?, hm.agrees.scopes s env hs, hx]
      obtain ⟨htarget, hm'⟩ := hm.root (hm.live_of_bound hs hx)
      simp only [Option.bind_some, hlocal, hstore]
      exact ⟨congrArg some htarget, hm'⟩

/-- Binding a name anew where it is bound. -/
theorem assign (hm : Mirrored ⟨w, h.holdings ++ held, none⟩ st) (name : String)
    (he : ∃ env, w.envs[e]? = some env) :
    Performed held (w.assign e name h) (st.assign e name h.target) := by
  unfold World.assign Store.assign
  rw [← hm.nearest name he]
  cases hn : w.nearest name e with
  | none => exact .error hm.drop
  | some s =>
      obtain ⟨env, x, hs, -⟩ := World.nearest_eq_some hn
      obtain ⟨htarget, hm₁⟩ := hm.clone (owned_holdings h held)
      have hs' : ∃ env, (w.clone h).1.envs[s]? = some env := by
        rw [World.clone, World.envs_root]
        exact ⟨env, hs⟩
      have hm₂ := hm₁.rebind name hs'
      rw [htarget] at hm₂
      exact .ok (a := ()) hm₂.drop.drop

theorem defineAll {bindings : List (String × Handle)}
    (hm : Mirrored ⟨w, (bindings.flatMap fun p => p.2.holdings) ++ held, none⟩ st)
    (he : .share e ∈ held) :
    Mirrored ⟨w.defineAll e bindings, held, none⟩
      (st.defineAll e (bindings.map fun p => (p.1, p.2.target))) := by
  induction bindings generalizing w st with
  | nil => exact hm
  | cons p bindings ih =>
      rw [List.flatMap_cons, List.append_assoc] at hm
      exact ih (hm.define (hm.balanced.env_of_share (List.mem_append_right _
        (List.mem_append_right _ he))))

/-- A new scope for a call. -/
theorem bind {args : List Handle}
    (hm : Mirrored ⟨w, args.flatMap Handle.holdings ++ held, none⟩ st) (i : HeapId)
    (params : List String) (rest : Option String) {parent : Option EnvId}
    (hp : ∀ p ∈ parent, ∃ env, w.envs[p]? = some env) :
    Obtained (fun e => [.share e]) id held (w.bind i params rest args parent)
      (st.bind i params rest (args.map Handle.target) parent) := by
  unfold World.bind Store.bind
  rw [List.length_map]
  cases ha : World.arity params rest args.length with
  | error e => exact .error hm.dropAll
  | ok u =>
      obtain ⟨hle, hge⟩ := arity_eq_ok ha
      obtain ⟨henv, hnew⟩ := hm.newEnv hp
      have hzip : params.zip (args.map Handle.target) =
          (params.zip args).map fun p => (p.1, p.2.target) := List.zip_map_right
      dsimp only
      rw [← henv, hzip]
      generalize (w.newEnv parent).2 = e at hnew ⊢
      -- the parameters take over their arguments; the others are still in hand
      have hdefined : Mirrored ⟨(w.newEnv parent).1.defineAll e (params.zip args),
          (args.drop params.length).flatMap Handle.holdings ++ ([.share e] ++ held), none⟩
          ((st.newScope parent).1.defineAll e
            ((params.zip args).map fun p => (p.1, p.2.target))) := by
        refine Mirrored.defineAll (hnew.permute ?_) ?_
        · rw [← holdings_zip hle, ← List.append_assoc]
          exact List.perm_middle.symm
        · exact List.mem_append_right _ List.mem_cons_self
      generalize (w.newEnv parent).1.defineAll e (params.zip args) = w' at hdefined ⊢
      generalize ((st.newScope parent).1.defineAll e _) = st' at hdefined ⊢
      cases rest with
      | none =>
          have hdrop : args.drop params.length = [] := List.drop_eq_nil_of_le (hge rfl)
          rw [hdrop] at hdefined
          show Obtained _ id held _ (_, .ok (id e))
          exact .ok hdefined
      | some name =>
          have hlist := hdefined.list i
          rw [List.map_drop] at hlist
          dsimp only
          generalize w'.list i (args.drop params.length) = out at hlist ⊢
          generalize st'.list i ((args.map Handle.target).drop params.length) = out' at hlist ⊢
          cases hlist with
          | ok hm' =>
              show Obtained _ id held _ (_, .ok (id e))
              refine .ok (hm'.define (hm'.balanced.env_of_share ?_))
              exact List.mem_append_right _ List.mem_cons_self
          | error hm' => exact .error hm'.leaveEnv

end Mirrored

end HybridHeap
