import HybridHeap.Proofs.Mirror.Scopes
import HybridHeap.Proofs.World.Shrink

/-!
Names along a chain of scopes. A name resolves to what the nearest scope binds it to, null
included; looking it up finds just that, and changes no scope.
-/

namespace HybridHeap

namespace World

/-- From the scope `e` outwards, `s` is the first scope that binds the name, and it binds it
to `x`. -/
inductive Resolves (w : World) (name : String) : EnvId → EnvId → Handle → Prop
  | here {e : EnvId} {env : Environment} {x : Handle} (he : w.envs[e]? = some env)
      (hx : env.bindings[name]? = some x) : Resolves w name e e x
  | outer {e p s : EnvId} {env : Environment} {x : Handle} (he : w.envs[e]? = some env)
      (hn : env.bindings[name]? = none) (hp : env.parent = some p)
      (hs : Resolves w name p s x) : Resolves w name e s x

variable {w w' : World} {held : List Holding} {write : Option Writing} {name : String}
  {e s : EnvId} {x : Handle}

namespace Resolves

theorem binding (hr : w.Resolves name e s x) :
    ∃ env : Environment, w.envs[s]? = some env ∧ env.bindings[name]? = some x := by
  induction hr with
  | here he hx => exact ⟨_, he, hx⟩
  | outer _ _ _ _ ih => exact ih

/-- While every scope keeps its parent, the scopes that a name is looked up in stay alive. -/
theorem alive_of_parents (hr : w.Resolves name e s x) (hb : w'.Balanced held write)
    (hparents : ∀ (d : EnvId) (env' : Environment), w'.envs[d]? = some env' →
      ∃ env, w.envs[d]? = some env ∧ env'.parent = env.parent)
    (he : w'.Alive (.scope e)) : w'.Alive (.scope s) := by
  induction hr with
  | here => exact he
  | outer he₀ _ hp _ ih =>
      obtain ⟨env', he'⟩ := he
      obtain ⟨env, hold, hparent⟩ := hparents _ env' he'
      cases he₀.symm.trans hold
      exact ih (hb.env_of_parent he' (hparent.trans hp))

end Resolves

namespace Balanced

/-- The search along the chain of scopes finds the nearest one. -/
theorem nearest_eq_some_iff (hb : w.Balanced held write) :
    w.nearest name e = some s ↔ ∃ x, w.Resolves name e s x := by
  constructor
  · intro h
    -- a parent has a smaller number than its child
    induction e using Nat.strongRecOn with
    | ind e ih =>
        rw [nearest] at h
        cases he : w.envs[e]? with
        | none =>
            rw [he] at h
            cases h
        | some env =>
            rw [he] at h
            dsimp only at h
            rw [Std.ExtTreeMap.contains_eq_isSome_getElem?] at h
            cases hx : env.bindings[name]? with
            | some x =>
                rw [hx, Option.isSome_some, if_pos rfl] at h
                cases h
                exact ⟨x, .here he hx⟩
            | none =>
                rw [hx, Option.isSome_none, if_neg Bool.false_ne_true] at h
                split at h
                · cases h
                · rename_i p hp
                  split at h
                  · rename_i hlt
                    obtain ⟨x, hr⟩ := ih p hlt h
                    exact ⟨x, .outer he hx hp hr⟩
                  · cases h
  · rintro ⟨x, hr⟩
    induction hr with
    | here he hx =>
        rw [nearest, he]
        dsimp only
        rw [Std.ExtTreeMap.contains_eq_isSome_getElem?, hx, Option.isSome_some, if_pos rfl]
    | @outer e p s env x he hn hp _ ih =>
        rw [nearest, he]
        dsimp only
        rw [Std.ExtTreeMap.contains_eq_isSome_getElem?, hn, Option.isSome_none,
          if_neg Bool.false_ne_true, hp]
        dsimp only
        rw [if_pos ((hb.scopes e env he).2.1 p hp), ih]

theorem nearest_eq_none (hb : w.Balanced held write) (hn : ∀ s x, ¬w.Resolves name e s x) :
    w.nearest name e = none := by
  rw [Option.eq_none_iff_forall_ne_some]
  intro s hs
  obtain ⟨x, hr⟩ := hb.nearest_eq_some_iff.mp hs
  exact hn s x hr

/-- Where no scope that was there has changed, names resolve in it as before. -/
theorem resolves_iff (hb : w.Balanced held write) {held' : List Holding}
    (hb' : w'.Balanced held' write) (hk : ∀ d, w.Alive (.scope d) → w.Keeps w' (.scope d))
    (he : w.Alive (.scope e)) (he' : w'.Alive (.scope e)) :
    w'.Resolves name e s x ↔ w.Resolves name e s x := by
  constructor
  · intro hr
    induction hr with
    | @here e env' x henv' hx =>
        obtain ⟨env, henv, -, hbindings⟩ := hk e he env' henv'
        exact .here henv (hbindings ▸ hx)
    | @outer e p s env' x henv' hn hp _ ih =>
        obtain ⟨env, henv, hparent, hbindings⟩ := hk e he env' henv'
        rw [← hparent] at hp
        rw [← hbindings] at hn
        refine .outer henv hn hp (ih (hb.env_of_parent henv hp) ?_)
        exact hb'.env_of_parent henv' (hparent ▸ hp)
  · intro hr
    induction hr with
    | @here e env x henv hx =>
        obtain ⟨env', henv'⟩ := he'
        obtain ⟨old, hold, -, hbindings⟩ := hk e he env' henv'
        cases henv.symm.trans hold
        exact .here henv' (hbindings ▸ hx)
    | @outer e p s env x henv hn hp _ ih =>
        obtain ⟨env', henv'⟩ := he'
        obtain ⟨old, hold, hparent, hbindings⟩ := hk e he env' henv'
        cases henv.symm.trans hold
        have hp' : env'.parent = some p := hparent.symm.trans hp
        exact .outer henv' (hbindings ▸ hn) hp'
          (ih (hb.env_of_parent henv hp) (hb'.env_of_parent henv' hp'))

/-- A bound handle refers to a live cell or to none. -/
theorem live_of_resolves (hb : w.Balanced held write) (hr : w.Resolves name e s x) :
    ∀ c ∈ x.target, w.Live c := by
  obtain ⟨env, hs, hx⟩ := hr.binding
  intro c hc
  obtain ⟨r, rfl, rfl⟩ := Option.map_eq_some_iff.mp hc
  exact hb.live_of_mem (List.mem_append_right _
    (mem_bound.mpr ⟨s, env, hs, Environment.mem_roots.mpr ⟨name, hx⟩⟩))

/-- A new root of what a slot refers to. Nothing but its count changes. -/
theorem root {t : Slot} (hb : w.Balanced held none) (hl : ∀ c ∈ t, w.Live c) :
    (w.root t).2.target = t ∧ (w.root t).1.Balanced ((w.root t).2.holdings ++ held) none ∧
      (∀ n, w.Keeps (w.root t).1 n) ∧ ∀ n, w.Alive n → (w.root t).1.Alive n := by
  cases t with
  | none => exact ⟨rfl, hb, .refl w, fun _ hn => hn⟩
  | some c =>
      obtain ⟨h, hi, hlive⟩ := hl c rfl
      have hheap := hb.heap _ h hi
      obtain ⟨hcell, hbal, hcells, -⟩ := hheap.register hlive
      simp only [World.root, hi]
      refine ⟨congrArg some hcell, hb.register hi hlive, fun n => ?_, fun n hn => ?_⟩
      · exact keeps_setHeap hi fun d _ cell' hf' =>
          Heap.find?_of_uncounted hbal.counted hheap.counted hcells.symm hf'
      · cases n with
        | scope e => exact hn
        | cell d =>
            obtain ⟨k, hk, cell, hf⟩ := hn
            by_cases hd : c.heap = d.heap
            · rw [← hd, hi, Option.some.injEq] at hk
              subst hk
              obtain ⟨cell', hf', -⟩ :=
                Heap.find?_of_uncounted hheap.counted hbal.counted hcells hf
              exact ⟨_, hd ▸ heap?_setHeap_self hi _, cell', hf'⟩
            · exact ⟨k, (heap?_setHeap_of_ne hd w _).trans hk, cell, hf⟩

theorem clone (hb : w.Balanced held none) (hl : ∀ c ∈ x.target, w.Live c) :
    (w.clone x).2.target = x.target ∧
      (w.clone x).1.Balanced ((w.clone x).2.holdings ++ held) none ∧
      (w.clone x).1.envs = w.envs ∧ ∀ n, w.Keeps (w.clone x).1 n := by
  obtain ⟨htarget, hb', hkeeps, -⟩ := hb.root hl
  exact ⟨htarget, hb', w.envs_root _, hkeeps⟩

theorem lookup_of_resolves (hb : w.Balanced held write) (hr : w.Resolves name e s x) :
    w.lookup e name = ((w.clone x).1, some (w.clone x).2) := by
  obtain ⟨env, hs, hx⟩ := hr.binding
  have hlocal : w.localBinding? s name = some x := by
    simp [localBinding?, hs, hx]
  rw [lookup, hb.nearest_eq_some_iff.mpr ⟨x, hr⟩, Option.bind_some, hlocal]

theorem lookup_of_unresolved (hb : w.Balanced held write) (hn : ∀ s x, ¬w.Resolves name e s x) :
    w.lookup e name = (w, none) := by
  rw [lookup, hb.nearest_eq_none hn, Option.bind_none]

end Balanced

end World

end HybridHeap
