import Mathlib.Data.List.Permutation
import HybridHeap.Proofs.Session.Reachable
import HybridHeap.Proofs.World.Listing
import HybridHeap.Proofs.World.Resolution
import HybridHeap.Proofs.World.Tally

/-!
Definitions and assignments in a chain of scopes. Both bind a name of one scope anew and then
drop what it was bound to; an assignment does so where the name resolves, and stores a clone of
the handle, which is dropped last. The drops may destroy other scopes of the same graph, but
those that are left have changed in this one binding only.
-/

namespace HybridHeap

/-- A binding that takes the place of another brings its own reference. -/
theorem Environment.count_refs_insert (env : Environment) (name : String) (x : Handle) (n : Node) :
    ({ env with bindings := env.bindings.insert name x } : Environment).refs.count n +
        (((env.bindings[name]?).getD none).holdings.map Holding.node).count n =
      env.refs.count n + (x.holdings.map Holding.node).count n := by
  have hold := ((env.roots_perm_erase name).map fun r => Node.cell r.cell).count_eq n
  have hnew := ((env.roots_insert_perm name x).map fun r => Node.cell r.cell).count_eq n
  have hnode : ∀ y : Handle, y.holdings.map Holding.node = y.toList.map fun r => .cell r.cell :=
    fun y => List.map_map
  rw [List.map_append, List.count_append] at hold hnew
  rw [refs, refs, List.count_append, List.count_append, hnode, hnode]
  dsimp only
  omega

namespace World

/-- From `w` to `w'` the scope `s` has had its binding `old` of the name replaced by `stored`,
and `dues` have been dropped. -/
structure Rebound (w : World) (held : List Holding) (s : EnvId) (name : String)
    (stored old : Handle) (dues : List Holding) (w' : World) : Prop where
  /-- Only this binding has changed. -/
  scope : ∀ env', w'.envs[s]? = some env' → ∃ env, w.envs[s]? = some env ∧
    env'.parent = env.parent ∧ (env.bindings[name]?).getD none = old ∧
    env'.bindings = env.bindings.insert name stored
  others : ∀ n, n ≠ .scope s → w.Keeps w' n
  /-- The binding alone owns its root. -/
  owned : w'.Alive (.scope s) → ∀ r ∈ stored,
    (heldRoots held ++ w'.bound).count r = 1 ∧
      ∃ h', w'.heap? r.cell.heap = some h' ∧ r.entry ∈ h'.roots.toList
  dropped : ∀ r, .root r ∈ dues → ∀ h', w'.heap? r.cell.heap = some h' →
    r.ticket ∉ h'.roots.toList.map Prod.fst
  /-- The reference of the old binding is given up once, and those of what is gone. -/
  counts : w'.Alive (.scope s) → ∀ n, w.Alive n → w'.Alive n →
    w'.tally n + ((w.gone w').flatMap w.refs).count n + (old.holdings.map Holding.node).count n =
      w.tally n

variable {w w₁ w' : World} {held dues : List Holding} {s d e t : EnvId} {env : Environment}
  {name m : String} {h stored old y : Handle}

theorem Balanced.rebound (hb : w.Balanced (h.holdings ++ held) none) (he : w.envs[s]? = some env)
    (htarget : stored.target = h.target) (hothers : ∀ n, n ≠ .scope s → w.Keeps w₁ n)
    (hscope : w₁.envs[s]? = some { env with bindings := env.bindings.insert name stored })
    (hb₁ : w₁.Balanced (dues ++ held) none) (hs : w₁.Shrinks w') (hb' : w'.Balanced held none) :
    w.Rebound held s name stored ((env.bindings[name]?).getD none) dues w' := by
  have hscope' : ∀ env', w'.envs[s]? = some env' →
      env'.parent = env.parent ∧ env'.bindings = env.bindings.insert name stored := by
    intro env' he'
    obtain ⟨env₁, he₁, hparent, hbindings⟩ := hs.scopes s env' he'
    cases hscope.symm.trans he₁
    exact ⟨hparent.symm, hbindings.symm⟩
  have hkeeps : ∀ n, n ≠ .scope s → w.Keeps w' n := fun n hn => (hothers n hn).trans (hs.keeps n)
  constructor
  case scope =>
    intro env' he'
    obtain ⟨hparent, hbindings⟩ := hscope' env' he'
    exact ⟨env, he, hparent, rfl, hbindings⟩
  case others => exact hkeeps
  case owned =>
    rintro ⟨env', he'⟩ r hr
    obtain ⟨-, hbindings⟩ := hscope' env' he'
    have hbound : r ∈ w'.bound := by
      refine mem_bound.mpr ⟨s, env', he', Environment.mem_roots.mpr ⟨name, ?_⟩⟩
      rw [hbindings, Std.ExtTreeMap.getElem?_insert_self, hr]
    have hmem := List.mem_append_right (heldRoots held) hbound
    obtain ⟨h', hi', -⟩ := hb'.live_of_mem hmem
    exact ⟨List.count_eq_one_of_mem hb'.nodup_roots hmem, h', hi',
      (hb'.mem_roots_iff hi').mpr ⟨r, hmem, rfl, rfl⟩⟩
  case dropped =>
    exact fun r hr h' hi' => hb₁.unlisted hb' (bound_subset fun d => hs.keeps (.scope d)) hr hi'
  case counts =>
    rintro ⟨env', he'⟩ n hn hn'
    obtain ⟨hparent, hbindings⟩ := hscope' env' he'
    have htransfer := hb.tally_transfer hb' [] [.scope s] .nil
      (fun m hm => by cases hm) (List.nodup_singleton _)
      (fun m hm => List.mem_singleton.mp hm ▸ ⟨⟨env', he'⟩, ⟨env, he⟩⟩)
      (fun m hm _ => ?_) hn hn'
    · have hrefs := env.count_refs_insert name stored n
      have hnew : w'.refs (.scope s) =
          ({ env with bindings := env.bindings.insert name stored } : Environment).refs := by
        simp only [refs, he', Option.toList_some, List.flatMap_singleton, Environment.refs,
          Environment.roots, hparent, hbindings]
      have hold : w.refs (.scope s) = env.refs := by
        simp only [refs, he, Option.toList_some, List.flatMap_singleton]
      rw [List.flatMap_singleton, List.flatMap_singleton, List.flatMap_nil, List.count_nil, hnew,
        hold, List.map_append, List.count_append, h.node_holdings, ← htarget,
        ← stored.node_holdings] at htransfer
      omega
    · by_cases hms : m = .scope s
      · subst hms
        exact ⟨⟨env, he⟩, fun hne => absurd List.mem_cons_self hne⟩
      · exact ⟨(hkeeps m hms).alive hm, fun _ => (hkeeps m hms).refs_eq hm⟩

namespace Rebound

theorem parent_eq (hr : w.Rebound held s name stored old dues w') {env' : Environment}
    (he' : w'.envs[d]? = some env') : ∃ env, w.envs[d]? = some env ∧ env'.parent = env.parent := by
  by_cases hd : d = s
  · subst hd
    obtain ⟨env, he, hparent, -⟩ := hr.scope env' he'
    exact ⟨env, he, hparent⟩
  · obtain ⟨env, he, hparent, -⟩ := hr.others (.scope d) (by simpa using hd) env' he'
    exact ⟨env, he, hparent.symm⟩

/-- A name that was bound is bound anew in this scope, and is bound as before in the others. -/
theorem getElem?_bindings (hr : w.Rebound held s name stored old dues w') {env env' : Environment}
    (he : w.envs[d]? = some env) (he' : w'.envs[d]? = some env') (m : String) :
    env'.bindings[m]? = if d = s ∧ m = name then some stored else env.bindings[m]? := by
  by_cases hd : d = s
  · subst hd
    obtain ⟨old, hold, -, -, hbindings⟩ := hr.scope env' he'
    cases he.symm.trans hold
    rw [hbindings, Std.ExtTreeMap.getElem?_insert]
    simp only [Std.compare_eq_iff_eq, true_and, @eq_comm _ m]
  · obtain ⟨old, hold, -, hbindings⟩ := hr.others (.scope d) (by simpa using hd) env' he'
    cases he.symm.trans hold
    rw [← hbindings, if_neg fun hds => hd hds.1]

/-- Where the name was bound before, no scope binds more names than it did, or fewer. -/
theorem getElem?_eq_none (hr : w.Rebound held s name stored old dues w')
    (hbound : ∀ env : Environment, w.envs[s]? = some env → ∃ x, env.bindings[name]? = some x)
    {env env' : Environment} (he : w.envs[d]? = some env) (he' : w'.envs[d]? = some env') :
    env'.bindings[m]? = none ↔ env.bindings[m]? = none := by
  rw [hr.getElem?_bindings he he' m]
  split
  · rename_i hdm
    obtain ⟨rfl, rfl⟩ := hdm
    obtain ⟨x, hx⟩ := hbound env he
    simp [hx]
  · rfl

/-- Every name resolves where it did, and to what it did, but for the name that was bound anew
where it resolves to that scope. -/
theorem resolves_iff (hr : w.Rebound held s name stored old dues w') (hb' : w'.Balanced held none)
    (hbound : ∀ env : Environment, w.envs[s]? = some env → ∃ x, env.bindings[name]? = some x)
    (hd : w'.Alive (.scope d)) :
    w'.Resolves m d t y ↔
      ∃ x, w.Resolves m d t x ∧ y = if t = s ∧ m = name then stored else x := by
  constructor
  · intro hy
    induction hy with
    | @here d env' y he' hy =>
        obtain ⟨env, he, -⟩ := hr.parent_eq he'
        have hget := hr.getElem?_bindings he he' m
        rw [hy] at hget
        split at hget
        · rename_i hdm
          obtain ⟨rfl, rfl⟩ := hdm
          obtain ⟨x, hx⟩ := hbound env he
          exact ⟨x, .here he hx, by rw [if_pos ⟨rfl, rfl⟩, Option.some.inj hget]⟩
        · rename_i hdm
          exact ⟨y, .here he hget.symm, (if_neg hdm).symm⟩
    | outer he' hn hp _ ih =>
        obtain ⟨env, he, hparent⟩ := hr.parent_eq he'
        obtain ⟨x, hx, hy⟩ := ih (hb'.env_of_parent he' hp)
        exact ⟨x, .outer he ((hr.getElem?_eq_none hbound he he').mp hn) (hparent ▸ hp) hx, hy⟩
  · rintro ⟨x, hx, rfl⟩
    induction hx with
    | @here d env x he hx =>
        obtain ⟨env', he'⟩ := hd
        have hget := hr.getElem?_bindings he he' m
        refine .here he' (hget.trans ?_)
        rw [hx]
        split <;> rfl
    | outer he hn hp _ ih =>
        obtain ⟨env', he'⟩ := hd
        obtain ⟨old, hold, hparent⟩ := hr.parent_eq he'
        cases he.symm.trans hold
        have hp' := hparent.trans hp
        exact .outer he' ((hr.getElem?_eq_none hbound he he').mpr hn) hp'
          (ih (hb'.env_of_parent he' hp'))

end Rebound

section Operations

theorem Balanced.shrinks_drop (hb : w.Balanced (h.holdings ++ held) none) :
    w.Shrinks (w.drop h) ∧ (w.drop h).Balanced held none := by
  have hchores : w.Balanced ((([h].filterMap id).map Chore.dropRoot).map Chore.holding ++ held)
      none := by
    rwa [map_holding_dropRoot, List.flatMap_cons, List.flatMap_nil, List.append_nil]
  exact ⟨hchores.shrinks_settle, hchores.settle⟩

theorem rebind_snd (he : w.envs[s]? = some env) (name : String) (stored : Handle) :
    (w.rebind s name stored).2 = (env.bindings[name]?).getD none := by
  simp only [rebind, localBinding?, he, Option.bind_eq_bind, Option.bind_some]

theorem getElem?_envs_rebind (he : w.envs[s]? = some env) (name : String) (stored : Handle) :
    (w.rebind s name stored).1.envs[s]? =
      some { env with bindings := env.bindings.insert name stored } := by
  simp only [rebind, modifyEnv, modify_eq_insert he, Std.ExtTreeMap.getElem?_insert_self]

theorem keeps_rebind (he : w.envs[s]? = some env) (name : String) (stored : Handle) {n : Node}
    (hn : n ≠ .scope s) : w.Keeps (w.rebind s name stored).1 n := by
  simp only [rebind, modifyEnv, modify_eq_insert he]
  cases n with
  | cell c => exact fun k cell hk hf => ⟨k, cell, hk, hf, rfl⟩
  | scope d =>
      intro env' he'
      rcases eq_or_of_getElem?_insert he' with ⟨rfl, -⟩ | he'
      · exact absurd rfl hn
      · exact ⟨env', he', rfl, rfl⟩

theorem Balanced.rebound_define (hb : w.Balanced (h.holdings ++ held) none)
    (he : w.envs[s]? = some env) (name : String) :
    (w.define s name h).Balanced held none ∧
      w.Rebound held s name h ((env.bindings[name]?).getD none)
        ((env.bindings[name]?).getD none).holdings (w.define s name h) := by
  have hdefine : w.define s name h =
      (w.rebind s name h).1.drop ((env.bindings[name]?).getD none) :=
    congrArg (w.rebind s name h).1.drop (rebind_snd he name h)
  have hb₁ : (w.rebind s name h).1.Balanced ((w.rebind s name h).2.holdings ++ held) none :=
    hb.rebind he
  rw [rebind_snd he] at hb₁
  obtain ⟨hs, hb'⟩ := hb₁.shrinks_drop
  rw [hdefine]
  exact ⟨hb', hb.rebound he rfl (fun n hn => keeps_rebind he name h hn)
    (getElem?_envs_rebind he name h) hb₁ hs hb'⟩

theorem Balanced.rebound_assign (hb : w.Balanced (h.holdings ++ held) none) {x : Handle}
    (hr : w.Resolves name e s x) :
    (w.assign e name h).2 = .ok () ∧ (w.assign e name h).1.Balanced held none ∧
      ∃ stored, stored.target = h.target ∧ w.Rebound held s name stored x
        (x.holdings ++ h.holdings) (w.assign e name h).1 := by
  obtain ⟨env, he, hx⟩ := hr.binding
  have hold : (env.bindings[name]?).getD none = x := by rw [hx, Option.getD_some]
  have hlive : ∀ c ∈ h.target, w.Live c := by
    intro c hc
    obtain ⟨r, rfl, rfl⟩ := Option.map_eq_some_iff.mp hc
    exact hb.live (List.mem_append_left _ (List.mem_map_of_mem (Option.mem_toList.mpr rfl)))
  obtain ⟨htarget, hb₁, henvs, hkeeps⟩ := hb.clone hlive
  have hassign : w.assign e name h =
      ((((w.clone h).1.rebind s name (w.clone h).2).1.drop
        ((w.clone h).1.rebind s name (w.clone h).2).2).drop h, .ok ()) := by
    rw [assign, hb.nearest_eq_some_iff.mpr ⟨x, hr⟩]
  rw [hassign]
  generalize (w.clone h).1 = w₁ at htarget hb₁ henvs hkeeps ⊢
  generalize (w.clone h).2 = stored at htarget hb₁ ⊢
  have he₁ : w₁.envs[s]? = some env := henvs ▸ he
  have hb₂ : (w₁.rebind s name stored).1.Balanced
      ((w₁.rebind s name stored).2.holdings ++ (h.holdings ++ held)) none := hb₁.rebind he₁
  rw [rebind_snd he₁, hold] at hb₂ ⊢
  obtain ⟨hs, hb₃⟩ := hb₂.shrinks_drop
  obtain ⟨hs', hb'⟩ := hb₃.shrinks_drop
  rw [← List.append_assoc] at hb₂
  have hrebound := hb.rebound he htarget
    (fun n hn => (hkeeps n).trans (keeps_rebind he₁ name stored hn))
    (getElem?_envs_rebind he₁ name stored) hb₂ (hs.trans hs') hb'
  exact ⟨rfl, hb', stored, htarget, hold ▸ hrebound⟩

end Operations

/-- What the operations on a name and a handle `h` do with the scope `e`, where `held` is owned
besides the handle. -/
structure Scoped (w : World) (held : List Holding) (e : EnvId) (name : String) (h : Handle) :
    Prop where
  /-- A lookup answers what the name resolves to, and changes no scope. -/
  found : ∀ s x, w.Resolves name e s x →
    ∃ y, (w.lookup e name).2 = some y ∧ y.target = x.target
  absent : (∀ s x, ¬w.Resolves name e s x) → (w.lookup e name).2 = none
  unchanged : (w.lookup e name).1.envs = w.envs
  /-- An assignment replaces what the name resolves to, by another root for the same cell. -/
  assigned : ∀ s x, w.Resolves name e s x → (w.assign e name h).2 = .ok () ∧
    ∃ stored, stored.target = h.target ∧
      w.Rebound held s name stored x (x.holdings ++ h.holdings) (w.assign e name h).1 ∧
      (∀ (d : EnvId) (env env' : Environment), w.envs[d]? = some env →
        (w.assign e name h).1.envs[d]? = some env' →
          ∀ m : String, env'.bindings[m]? = none ↔ env.bindings[m]? = none) ∧
      (∀ d m t y, (w.assign e name h).1.Alive (.scope d) →
        ((w.assign e name h).1.Resolves m d t y ↔
          ∃ x, w.Resolves m d t x ∧ y = if t = s ∧ m = name then stored else x)) ∧
      (.share e ∈ held → (w.assign e name h).1.Alive (.scope s))
  /-- Without a binding of the name, an assignment drops the handle and changes no scope. -/
  failed : (∀ s x, ¬w.Resolves name e s x) →
    (w.assign e name h).2 = .error (.bind (.unbound name)) ∧
      (∀ n, w.Keeps (w.assign e name h).1 n) ∧
      (∀ r ∈ h, ∀ h', (w.assign e name h).1.heap? r.cell.heap = some h' →
        r.ticket ∉ h'.roots.toList.map Prod.fst) ∧
      ∀ n, w.Alive n → (w.assign e name h).1.Alive n →
        (w.assign e name h).1.tally n +
            ((w.gone (w.assign e name h).1).flatMap w.refs).count n +
            (h.holdings.map Holding.node).count n = w.tally n
  /-- A definition binds the name in the scope itself, to the handle that is given. -/
  defined : ∃ old, w.Rebound held e name h old old.holdings (w.define e name h) ∧
    (∀ env env' : Environment, w.envs[e]? = some env → (w.define e name h).envs[e]? = some env' →
      env'.bindings.size ≤ env.bindings.size + 1) ∧
    (.share e ∈ held → (w.define e name h).Alive (.scope e))

/-- Chains of scopes are nested maps that share their outer parts. -/
theorem scopes_nested (hm : Moment.Reachable ⟨w, h.holdings ++ held, none⟩)
    (he : w.Alive (.scope e)) (name : String) : w.Scoped held e name h := by
  have hb : w.Balanced (h.holdings ++ held) none := hm.balanced
  obtain ⟨env, he⟩ := he
  constructor
  case found =>
    intro s x hr
    rw [hb.lookup_of_resolves hr]
    exact ⟨_, rfl, (hb.clone (hb.live_of_resolves hr)).1⟩
  case absent => exact fun hn => by rw [hb.lookup_of_unresolved hn]
  case unchanged =>
    by_cases hr : ∃ s x, w.Resolves name e s x
    · obtain ⟨s, x, hr⟩ := hr
      rw [hb.lookup_of_resolves hr]
      exact w.envs_root _
    · rw [hb.lookup_of_unresolved fun s x hx => hr ⟨s, x, hx⟩]
  case assigned =>
    intro s x hr
    obtain ⟨hok, hb', stored, htarget, hrebound⟩ := hb.rebound_assign hr
    have hbound : ∀ env : Environment, w.envs[s]? = some env →
        ∃ x, env.bindings[name]? = some x := by
      intro env hs
      obtain ⟨env₀, hs₀, hx⟩ := hr.binding
      cases hs.symm.trans hs₀
      exact ⟨x, hx⟩
    refine ⟨hok, stored, htarget, hrebound, fun d env env' hd hd' m => ?_,
      fun d m t y hd => hrebound.resolves_iff hb' hbound hd, fun hheld => ?_⟩
    · exact hrebound.getElem?_eq_none hbound hd hd'
    · exact hr.alive_of_parents hb' (fun d env' => hrebound.parent_eq) (hb'.env_of_share hheld)
  case failed =>
    intro hn
    have hassign : w.assign e name h = (w.drop h, .error (.bind (.unbound name))) := by
      rw [assign, hb.nearest_eq_none hn]
    obtain ⟨hs, hb'⟩ := hb.shrinks_drop
    rw [hassign]
    dsimp only
    refine ⟨rfl, hs.keeps, fun r hr h' hi' => ?_, fun n hn hn' => ?_⟩
    · refine hb.unlisted hb' (bound_subset fun d => hs.keeps (.scope d)) ?_ hi'
      exact List.mem_map_of_mem (Option.mem_toList.mpr hr)
    · exact hb'.tally_give hb
        (fun m hm => ⟨(hs.keeps m).alive hm, (hs.keeps m).refs_eq hm⟩) hn'
  case defined =>
    obtain ⟨hb', hrebound⟩ := hb.rebound_define he name
    refine ⟨_, hrebound, fun env env' hd hd' => ?_, hb'.env_of_share⟩
    obtain ⟨old, hold, -, -, hbindings⟩ := hrebound.scope env' hd'
    cases hd.symm.trans hold
    rw [hbindings]
    exact Std.ExtTreeMap.size_insert_le

/-- Two scopes with one parent, which binds a name to a closure over one of them. -/
def siblings : Session :=
  let body := Expr.lambda ["y"] none (.lambda [] none (.var "y"))
  let ops : List Op :=
    [.newScope "e" none,
      .allocate (.closure (.lambda { params := ["x"], rest := none, body }) "e") false (some "f"),
      .dropScope "e",
      .call "f" [.null] (some "g"),
      .call "g" [.fresh (.pair .null .null)] (some "k"),
      .closureScope "g" "p",
      .assign "p" "x" (.move "k"),
      .newScope "d" (some "p"),
      .drop "f",
      .drop "g",
      .dropScope "p",
      .allocate (.pair .null .null) false (some "v")]
  ops.foldl (fun s op => (s.performOp 1 op).1) (.new [])

theorem siblings_reachable : siblings.Reachable :=
  .foldl (.new _ _) 1 _

/-- From the other scope the name is assigned in the parent. The closure goes, and with it its
scope and the cell that this one binds. -/
theorem scopes_nested_siblings :
    let w := siblings.world
    let h := siblings.handle "v"
    siblings.holdings = h.holdings ++ [.share 3] ∧ (∃ x, w.Resolves "x" 3 1 x) ∧
      ((w.assign 3 "x" h).1.heap? 1).map Heap.stats =
        some { counters := { allocations := 5, eagerFrees := 4 }, liveObjects := 1, roots := 1,
               capacity := 4096 } ∧
      w.Scoped [.share 3] 3 "x" h := by
  intro w h
  have hheld : siblings.holdings = h.holdings ++ [.share 3] := by
    unfold h
    cbv
  have hm : Moment.Reachable ⟨w, h.holdings ++ [.share 3], none⟩ :=
    hheld ▸ siblings_reachable.moment
  have hb : w.Balanced (h.holdings ++ [.share 3]) none := hm.balanced
  have hnearest : w.nearest "x" 3 = some 1 := by
    unfold w
    cbv
  have halive : w.Alive (.scope 3) :=
    hb.env_of_share (List.mem_append_right _ List.mem_cons_self)
  refine ⟨hheld, hb.nearest_eq_some_iff.mp hnearest, ?_, scopes_nested hm halive "x"⟩
  unfold w h
  cbv

end World

end HybridHeap
