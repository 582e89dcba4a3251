import HybridHeap.Proofs.Bindings
import HybridHeap.Proofs.Session.Scoping
import HybridHeap.Proofs.World.Aging
import HybridHeap.Proofs.World.Failures
import HybridHeap.Proofs.World.Lists

/-!
The binding of arguments. A call makes a new scope and defines the parameters in it one after
the other, and then the rest parameter, if there is one, as the list of the arguments left over.
A name that comes again drops the handle that it was bound to, while the arguments after it are
still in hand, and each pair of the list may start a collection. In the end every argument is
bound, in the list, or has been dropped.
-/

namespace HybridHeap

namespace World

variable {w w' : World} {held : List Holding} {i : HeapId} {h : Heap} {e : EnvId}
  {env : Environment} {bindings : List (String × Handle)} {parent : Option EnvId}
  {cells : List CellId} {params : List String} {rest : Option String} {args : List Handle}

/-- The bindings of a call, in the order in which they are made. -/
def callBindings (params : List String) (rest : Option String) (args : List Handle)
    (surplus : Handle) : List (String × Handle) :=
  params.zip args ++ rest.toList.map fun name => (name, surplus)

/-- The arguments that are bound to a name that comes again, for a later parameter or for the
list. -/
def displaced (params : List String) (rest : Option String) (args : List Handle) : List Handle :=
  superseded rest.toList (params.zip args)

section Call

variable {surplus : Handle}

theorem map_fst_callBindings (hle : params.length ≤ args.length) :
    (callBindings params rest args surplus).map Prod.fst = params ++ rest.toList := by
  rw [callBindings, List.map_append, List.map_fst_zip hle, List.map_map]
  exact congrArg (params ++ ·) (List.map_id _)

theorem superseded_callBindings :
    superseded [] (callBindings params rest args surplus) = displaced params rest args := by
  have hlast : superseded [] (rest.toList.map fun name => (name, surplus)) = [] := by
    cases rest <;> rfl
  rw [callBindings, superseded_append, hlast, List.append_nil, List.append_nil, List.map_map]
  exact congrArg (superseded · (params.zip args)) (List.map_id _)

theorem map_snd_zip_of_le (hle : params.length ≤ args.length) :
    (params.zip args).map Prod.snd = args.take params.length := by
  rw [List.zip_eq_zip_take_min, Nat.min_eq_left hle, List.take_length, List.map_snd_zip]
  rw [List.length_take]
  exact Nat.min_le_left _ _

theorem displaced_subset (hle : params.length ≤ args.length) :
    displaced params rest args ⊆ args := by
  intro x hx
  have hmem := (superseded_sublist _ _).subset hx
  rw [map_snd_zip_of_le hle] at hmem
  exact List.mem_of_mem_take hmem

/-- The rest parameter is bound to the list, whatever was bound to its name. -/
theorem getElem?_callBindings_rest (hle : params.length ≤ args.length) {name : String}
    (hname : rest = some name) :
    (lastOf (callBindings params rest args surplus))[name]? = some surplus := by
  subst hname
  have hlength : (params.zip args).length = params.length := by
    rw [List.length_zip, Nat.min_eq_left hle]
  have hk : (callBindings params (some name) args surplus)[params.length]? =
      some (name, surplus) := by
    rw [callBindings, List.getElem?_append_right (Nat.le_of_eq hlength), hlength, Nat.sub_self]
    rfl
  refine getElem?_lastOf hk fun j hj hj' => ?_
  obtain ⟨hlt, -⟩ := List.getElem?_eq_some_iff.mp hj'
  rw [map_fst_callBindings hle, List.length_append] at hlt
  exact Nat.not_le.mpr hlt (Nat.succ_le_of_lt hj)

/-- Another parameter is bound to its argument, the last if its name comes several times. -/
theorem getElem?_callBindings_param {k : Nat} {name : String} {x : Handle}
    (hle : params.length ≤ args.length) (hk : params[k]? = some name) (hx : args[k]? = some x)
    (hlast : ∀ j > k, params[j]? ≠ some name) (hname : rest ≠ some name) :
    (lastOf (callBindings params rest args surplus))[name]? = some x := by
  have hzip : (params.zip args)[k]? = some (name, x) :=
    List.getElem?_zip_eq_some.mpr ⟨hk, hx⟩
  have hlt := (List.getElem?_eq_some_iff.mp hzip).1
  have hbinding : (callBindings params rest args surplus)[k]? = some (name, x) :=
    (List.getElem?_append_left hlt).trans hzip
  refine getElem?_lastOf hbinding fun j hj hj' => ?_
  rw [map_fst_callBindings hle] at hj'
  rcases Nat.lt_or_ge j params.length with hin | hout
  · rw [List.getElem?_append_left hin] at hj'
    exact hlast j hj hj'
  · rw [List.getElem?_append_right hout] at hj'
    exact hname (Option.mem_toList.mp (List.mem_of_getElem? hj'))

/-- Every argument, and the list with them, is displaced, bound in the end, or in the list. -/
theorem fates_callBindings (hle : params.length ≤ args.length) :
    (args ++ rest.toList.map fun _ => surplus).Perm
      (displaced params rest args ++ (lastOf (callBindings params rest args surplus)).values ++
        args.drop params.length) := by
  have hall := perm_lastOf (callBindings params rest args surplus)
  rw [superseded_callBindings, callBindings, List.map_append, map_snd_zip_of_le hle,
    List.map_map] at hall
  refine List.Perm.trans ?_ (hall.append_right _)
  have hsplit : args ++ rest.toList.map (fun _ => surplus) = args.take params.length ++
      (args.drop params.length ++ rest.toList.map fun _ => surplus) := by
    rw [← List.append_assoc, List.take_append_drop]
  rw [hsplit, List.append_assoc]
  exact List.perm_append_comm.append_left _

end Call

/-- From `w` to `w'` a scope `e` was made with these bindings, one after the other, and new
cells, while all else was left as it was; `due` is owned in `w'`. -/
structure Entered (w : World) (due : List Holding) (bindings : List (String × Handle))
    (parent : Option EnvId) (cells : List CellId) (e : EnvId) (env : Environment) (w' : World) :
    Prop where
  new : ¬w.Alive (.scope e)
  scope : w'.envs[e]? = some env
  parent : env.parent = parent
  bindings : env.bindings = lastOf bindings
  distinct : cells.Nodup
  fresh : ∀ c ∈ cells, ¬w.Live c
  keeps : ∀ n, n ≠ .scope e → n ∉ cells.map Node.cell → w.Keeps w' n
  balanced : w'.Balanced due none

section Making

variable {due : List Holding} {given : List Handle} {x : Handle}

theorem snd_newEnv (w : World) (parent : Option EnvId) : (w.newEnv parent).2 = w.nextEnv := by
  cases parent <;> rfl

theorem Balanced.entered_newEnv (hb : w.Balanced due none)
    (hp : ∀ p ∈ parent, w.Alive (.scope p)) :
    Entered w (.share w.nextEnv :: due) [] parent [] w.nextEnv
      { parent, bindings := ∅, owners := 1 } (w.newEnv parent).1 := by
  have hnew : Confined {.scope w.nextEnv} [] w (w.newEnv parent).1 := w.confined_newEnv parent rfl
  constructor
  case new => exact fun ha => hb.not_fresh_of_alive ha (Nat.le_refl w.nextEnv)
  case scope => cases parent <;> exact Std.ExtTreeMap.getElem?_insert_self
  case parent => rfl
  case bindings => rfl
  case distinct => exact .nil
  case fresh => exact fun c hc => by cases hc
  case keeps => exact fun n hn _ => hnew.keeps n hn
  case balanced => exact hb.newEnv hp

namespace Entered

theorem define (hs : Entered w (x.holdings ++ due) bindings parent cells e env w')
    (hshare : .share e ∈ due) (name : String) :
    (∃ env', Entered w due (bindings ++ [(name, x)]) parent cells e env' (w'.define e name x)) ∧
      ∀ n, n ≠ .scope e → w'.Keeps (w'.define e name x) n := by
  obtain ⟨hb', hrebound⟩ := hs.balanced.rebound_define hs.scope name
  refine ⟨?_, hrebound.others⟩
  obtain ⟨env', he'⟩ := hb'.env_of_share hshare
  obtain ⟨old, hold, hparent, -, hbindings⟩ := hrebound.scope env' he'
  cases hs.scope.symm.trans hold
  refine ⟨env', ?_⟩
  constructor
  case new => exact hs.new
  case scope => exact he'
  case parent => exact hparent.trans hs.parent
  case bindings => rw [hbindings, hs.bindings, lastOf_concat]
  case distinct => exact hs.distinct
  case fresh => exact hs.fresh
  case keeps => exact fun n hn hc => (hs.keeps n hn hc).trans (hrebound.others n hn)
  case balanced => exact hb'

/-- Definitions one after the other. -/
theorem defineAll {more : List (String × Handle)}
    (hs : Entered w ((more.flatMap fun p => p.2.holdings) ++ due) bindings parent cells e env w')
    (hshare : .share e ∈ due) :
    ∃ env', Entered w due (bindings ++ more) parent cells e env' (w'.defineAll e more) := by
  induction more generalizing w' bindings env with
  | nil => exact ⟨env, (List.append_nil bindings).symm ▸ hs⟩
  | cons p more ih =>
      rw [List.flatMap_cons, List.append_assoc] at hs
      obtain ⟨⟨env₁, hs₁⟩, -⟩ := hs.define (List.mem_append_right _ hshare) p.1
      rw [List.append_cons]
      exact ih hs₁

/-- A list of handles that are still in hand. The scope is left as it was. -/
theorem list (hs : Entered w (given.flatMap Handle.holdings ++ due) bindings parent [] e env w')
    (hshare : .share e ∈ due) (hb : w.Balanced held none) (hnext : w.nextCell ≤ w'.nextCell)
    (hi : w'.heap? i = some h) (hhome : ∀ x ∈ given, ∀ r ∈ x, r.cell.heap = i) :
    ∃ x cells env', (w'.list i given).2 = .ok x ∧
      Entered w (x.holdings ++ due) bindings parent cells e env' (w'.list i given).1 ∧
      (w'.list i given).1.ListAt cells (given.map Handle.target) x.target := by
  obtain ⟨x, cells, hx, hb', hchain, -⟩ := hs.balanced.list hi hhome
  obtain ⟨env', he'⟩ := hb'.env_of_share (List.mem_append_right _ hshare)
  obtain ⟨old, hold, hparent, hbindings⟩ := hchain.keeps (.scope e) (by simp) env' he'
  cases hs.scope.symm.trans hold
  refine ⟨x, cells, env', hx, ?_, hchain.list⟩
  constructor
  case new => exact hs.new
  case scope => exact he'
  case parent => exact hparent.symm.trans hs.parent
  case bindings => exact hbindings.symm.trans hs.bindings
  case distinct => exact hchain.distinct
  case fresh =>
    exact fun c hc hlive =>
      hb.not_fresh_of_alive (n := .cell c) hlive (Nat.le_trans hnext (hchain.fresh c hc))
  case keeps => exact fun n hn hc => (hs.keeps n hn (by simp)).trans (hchain.keeps n hc)
  case balanced => exact hb'

end Entered

theorem arity_of_le (hle : params.length ≤ args.length)
    (hrest : rest = none → args.length = params.length) :
    arity params rest args.length = .ok () := by
  rw [arity, if_neg (Nat.not_lt.mpr hle), if_neg]
  rintro ⟨hlt, hnone⟩
  exact Nat.ne_of_gt hlt (hrest hnone)

variable (hb : w.Balanced (args.flatMap Handle.holdings ++ held) none)
  (hp : ∀ p ∈ parent, w.Alive (.scope p)) (hle : params.length ≤ args.length)
  (hi : w.heap? i = some h)

include hb hp hle hi

/-- The parameters in the new scope, while the arguments left over are still in hand. -/
theorem Balanced.entered_params :
    (∃ env, Entered w ((args.drop params.length).flatMap Handle.holdings ++
      (.share w.nextEnv :: held)) (params.zip args) parent [] w.nextEnv env
        ((w.newEnv parent).1.defineAll w.nextEnv (params.zip args))) ∧
      w.nextCell ≤ ((w.newEnv parent).1.defineAll w.nextEnv (params.zip args)).nextCell ∧
      ∃ h', ((w.newEnv parent).1.defineAll w.nextEnv (params.zip args)).heap? i = some h' := by
  have hmoves : Moves .none w
      ((w.newEnv parent).1.defineAll w.nextEnv (params.zip args)) :=
    (w.moves_newEnv parent).trans (moves_defineAll _ _ _)
  refine ⟨?_, hmoves.precedes.nextCell, hmoves.exists_heap? not_false not_false hi⟩
  have hs := hb.entered_newEnv hp
  have hargs : (w.newEnv parent).1.Balanced (((params.zip args).flatMap fun p => p.2.holdings) ++
      ((args.drop params.length).flatMap Handle.holdings ++ (.share w.nextEnv :: held))) none := by
    refine hs.balanced.perm ?_
    rw [← List.append_assoc, holdings_zip hle]
    exact List.perm_middle.symm
  exact Entered.defineAll { hs with balanced := hargs }
    (List.mem_append_right _ List.mem_cons_self)

/-- Arguments of one heap that fit the parameters are bound. -/
theorem Balanced.entered (hrest : rest = none → args.length = params.length)
    (hhome : ∀ x ∈ args.drop params.length, ∀ r ∈ x, r.cell.heap = i) :
    ∃ e env surplus cells, (w.bind i params rest args parent).2 = .ok e ∧
      Entered w (.share e :: held) (callBindings params rest args surplus) parent cells e env
        (w.bind i params rest args parent).1 ∧
      (w.bind i params rest args parent).1.ListAt cells
        ((args.drop params.length).map Handle.target) surplus.target := by
  obtain ⟨⟨env, hs⟩, hnext, h', hi'⟩ := hb.entered_params hp hle hi
  simp only [bind, arity_of_le hle hrest, snd_newEnv]
  generalize (w.newEnv parent).1.defineAll w.nextEnv (params.zip args) = w' at hs hnext hi' ⊢
  cases rest with
  | none =>
      have hdrop : args.drop params.length = [] :=
        List.drop_eq_nil_of_le (Nat.le_of_eq (hrest rfl))
      rw [hdrop] at hs ⊢
      refine ⟨w.nextEnv, env, none, [], rfl, ?_, .nil⟩
      rwa [callBindings, Option.toList_none, List.map_nil, List.append_nil]
  | some name =>
      obtain ⟨x, cells, env₁, hx, hs₁, hl⟩ := hs.list List.mem_cons_self hb hnext hi' hhome
      dsimp only
      generalize w'.list i (args.drop params.length) = out at hx hs₁ hl ⊢
      obtain ⟨w₁, res⟩ := out
      dsimp only at hx hs₁ hl
      subst hx
      obtain ⟨⟨env₂, hs₂⟩, hkeeps⟩ := hs₁.define List.mem_cons_self name
      refine ⟨w.nextEnv, env₂, x, cells, rfl, hs₂, ?_⟩
      -- the scope keeps the list alive
      have hbound : env₂.bindings[name]? = some x := by
        rw [hs₂.bindings, lastOf_concat, Std.ExtTreeMap.getElem?_insert_self]
      exact hl.of_keeps hs₂.balanced (fun c _ => hkeeps (.cell c) (by simp))
        (hs₂.balanced.live_of_resolves (.here hs₂.scope hbound))

/-- The list is refused if an argument that goes into it belongs to another heap. -/
theorem Balanced.bind_foreign (hrest : rest ≠ none)
    (hforeign : ∃ x ∈ args.drop params.length, ∃ r ∈ x, r.cell.heap ≠ i) :
    (w.bind i params rest args parent).2 = .error (.foreign .inNewCell) := by
  obtain ⟨⟨env, hs⟩, -, h', hi'⟩ := hb.entered_params hp hle hi
  have hlist := hs.balanced.list_foreign hi' hforeign
  obtain ⟨name, rfl⟩ := Option.ne_none_iff_exists'.mp hrest
  simp only [bind, arity_of_le hle fun hnone => absurd hnone hrest, snd_newEnv]
  generalize World.list _ i (args.drop params.length) = out at hlist ⊢
  obtain ⟨w₁, res⟩ := out
  dsimp only at hlist
  subst hlist
  rfl

end Making

namespace Entered

variable {n : Node} {r : Root} {name : String} {h' : Heap}

section

variable (hs : Entered w (.share e :: held) bindings parent cells e env w')

include hs

theorem keeps_of_alive (hn : w.Alive n) : w.Keeps w' n := by
  refine hs.keeps n ?_ fun hm => ?_
  · rintro rfl
    exact hs.new hn
  · obtain ⟨c, hc, rfl⟩ := List.mem_map.mp hm
    exact hs.fresh c hc hn

/-- A name that is not among the bindings resolves where it did for the parent. -/
theorem resolves_iff {held₀ : List Holding} (hb : w.Balanced held₀ none)
    (hp : ∀ p ∈ parent, w.Alive (.scope p)) (hn : name ∉ bindings.map Prod.fst) {s : EnvId}
    {x : Handle} : w'.Resolves name e s x ↔ ∃ p ∈ parent, w.Resolves name p s x := by
  have hnone : env.bindings[name]? = none := by
    rw [hs.bindings, getElem?_lastOf_eq_none.mpr hn]
  have hparent : ∀ p ∈ parent, w'.Resolves name p s x ↔ w.Resolves name p s x := fun p hpm =>
    hb.resolves_iff hs.balanced (fun d hd => hs.keeps_of_alive hd) (hp p hpm)
      (hs.balanced.env_of_parent hs.scope (hs.parent.trans hpm))
  constructor
  · intro hr
    cases hr with
    | here he hx =>
        cases hs.scope.symm.trans he
        cases hnone.symm.trans hx
    | outer he _ hpm hr =>
        cases hs.scope.symm.trans he
        have hpm := hs.parent.symm.trans hpm
        exact ⟨_, hpm, (hparent _ hpm).mp hr⟩
  · rintro ⟨p, hpm, hr⟩
    exact .outer hs.scope hnone (hs.parent.trans hpm) ((hparent p hpm).mpr hr)

/-- The scope alone owns what it binds. -/
theorem owned (hr : some r ∈ env.bindings.values) :
    (heldRoots (.share e :: held) ++ w'.bound).count r = 1 ∧
      ∃ h', w'.heap? r.cell.heap = some h' ∧ h'.Live r.cell ∧ r.entry ∈ h'.roots.toList := by
  have hmem : r ∈ heldRoots (.share e :: held) ++ w'.bound := by
    refine List.mem_append_right _ (mem_bound.mpr ⟨e, env, hs.scope, ?_⟩)
    exact Environment.mem_roots.mpr (mem_values_iff.mp hr)
  obtain ⟨h', hi', hlive⟩ := hs.balanced.live_of_mem hmem
  exact ⟨List.count_eq_one_of_mem hs.balanced.nodup_roots hmem, h', hi', hlive,
    (hs.balanced.mem_roots_iff hi').mpr ⟨r, hmem, rfl, rfl⟩⟩

variable (hb : w.Balanced (args.flatMap Handle.holdings ++ held) none)

include hb

/-- An argument that is not bound in the end is on no root list. -/
theorem unlisted (hr : some r ∈ args) (hbound : some r ∉ env.bindings.values)
    (hi' : w'.heap? r.cell.heap = some h') : r.entry ∉ h'.roots.toList := by
  intro hm
  obtain ⟨s, hmem, -, hentry⟩ := (hs.balanced.mem_roots_iff hi').mp hm
  obtain rfl : s = r := by
    cases s
    cases r
    cases hentry
    rfl
  -- it was an argument, and so neither held nor bound
  have hnodup := hb.nodup_roots
  rw [heldRoots_append, List.append_assoc, flatMap_holdings, heldRoots_map_root,
    List.nodup_append] at hnodup
  refine hnodup.2.2 s (List.mem_filterMap.mpr ⟨some s, hr, rfl⟩) s ?_ rfl
  refine List.mem_append.mpr ((List.mem_append.mp hmem).imp id fun hmem => ?_)
  obtain ⟨d, env', hd, hroot⟩ := mem_bound.mp hmem
  have hde : d ≠ e := by
    rintro rfl
    cases hs.scope.symm.trans hd
    exact hbound (mem_values_iff.mpr (Environment.mem_roots.mp hroot))
  obtain ⟨old, hold, -, hbindings⟩ := hs.keeps (.scope d) (by simpa using hde) (by simp) env' hd
  refine mem_bound.mpr ⟨d, old, hold, ?_⟩
  rwa [Environment.roots, hbindings]

/-- The references of the arguments are now those of the scope and of the list. -/
theorem tally_add {listed : List Handle} {s : Slot}
    (hl : w'.ListAt cells (listed.map Handle.target) s) (hn : w.Alive n) (hn' : w'.Alive n) :
    w'.tally n + ((w.gone w').flatMap w.refs).count n +
        ((args.flatMap Handle.holdings).map Holding.node).count n =
      w.tally n + ((env.bindings.values.flatMap Handle.holdings).map Holding.node).count n +
        (parent.toList.map Node.scope).count n +
        ((listed.flatMap Handle.holdings).map Holding.node).count n := by
  have hscope : Node.scope e ≠ n := by
    rintro rfl
    exact hs.new hn
  have hcells : ∀ c ∈ cells, n ≠ .cell c := by
    rintro c hc rfl
    exact hs.fresh c hc hn
  have htransfer := hb.tally_transfer hs.balanced (.scope e :: cells.map Node.cell) []
    (List.nodup_cons.mpr ⟨by simp, hs.distinct.map Node.cell_injective⟩) (fun m hm => ?_) .nil
    (fun m hm => by cases hm) (fun m hm hne => ?_) hn hn'
  · have hrefs : w'.refs (.scope e) =
        (env.bindings.values.flatMap Handle.holdings).map Holding.node ++
          parent.toList.map Node.scope := by
      rw [flatMap_holdings, List.map_map]
      simp only [refs, hs.scope, Option.toList_some, List.flatMap_singleton, Environment.refs,
        hs.parent]
      rfl
    rw [List.flatMap_cons, List.count_append, hrefs, List.count_append, hl.count_refs hcells,
      ← node_flatMap_holdings, List.flatMap_nil, List.flatMap_nil, List.count_nil,
      List.map_append, List.count_append, List.map_cons, Holding.node,
      List.count_cons_of_ne hscope] at htransfer
    omega
  · rcases List.mem_cons.mp hm with rfl | hm
    · exact ⟨⟨env, hs.scope⟩, hs.new⟩
    · obtain ⟨c, hc, rfl⟩ := List.mem_map.mp hm
      exact ⟨hl.live hc, hs.fresh c hc⟩
  · obtain ⟨hne, hnc⟩ := not_or.mp (List.mem_cons.not.mp hne)
    have hkeeps := hs.keeps m hne hnc
    exact ⟨hkeeps.alive hm, fun _ => hkeeps.refs_eq hm⟩

end

end Entered

/-- The scope `e` that a call has made of the arguments, with `env` in it. Those that are left
over are in the list `surplus` of new pairs. -/
structure CallScope (w : World) (held : List Holding) (params : List String)
    (rest : Option String) (args : List Handle) (parent : Option EnvId) (w' : World) (e : EnvId)
    (env : Environment) (surplus : Handle) (cells : List CellId) : Prop where
  made : ¬w.Alive (.scope e) ∧ w'.envs[e]? = some env ∧ env.parent = parent
  /-- The list has the arguments left over in their order. -/
  listed : w'.ListAt cells ((args.drop params.length).map Handle.target) surplus.target ∧
    cells.Nodup ∧ ∀ c ∈ cells, ¬w.Live c
  last : ∀ name ∈ rest, env.bindings[name]? = some surplus
  /-- Where a name comes several times, the last of its arguments counts. -/
  parameter : ∀ (k : Nat) name, params[k]? = some name → (∀ j > k, params[j]? ≠ some name) →
    rest ≠ some name → ∃ x, args[k]? = some x ∧ env.bindings[name]? = some x
  /-- Other names are not bound here, and resolve as they did for the parent. -/
  others : ∀ name, name ∉ params → rest ≠ some name → env.bindings[name]? = none ∧
    ∀ s x, w'.Resolves name e s x ↔ ∃ p ∈ parent, w.Resolves name p s x
  size : env.bindings.size = (params ++ rest.toList).dedup.length
  /-- Every argument, and the list with them, is displaced, bound, or in the list. -/
  fates : (args ++ rest.toList.map fun _ => surplus).Perm
    (displaced params rest args ++ env.bindings.values ++ args.drop params.length)
  /-- The scope alone owns what it binds. -/
  owned : ∀ r, some r ∈ env.bindings.values →
    (heldRoots (.share e :: held) ++ w'.bound).count r = 1 ∧
      ∃ h', w'.heap? r.cell.heap = some h' ∧ h'.Live r.cell ∧ r.entry ∈ h'.roots.toList
  unlisted : ∀ r, some r ∈ displaced params rest args ++ args.drop params.length →
    ∀ h', w'.heap? r.cell.heap = some h' → r.entry ∉ h'.roots.toList
  /-- The references of displaced arguments are given up once, and those of what is gone. -/
  counts : ∀ n, w.Alive n → w'.Alive n →
    w'.tally n + ((w.gone w').flatMap w.refs).count n +
        (((displaced params rest args).flatMap Handle.holdings).map Holding.node).count n =
      w.tally n + (parent.toList.map Node.scope).count n
  unchanged : ∀ n, w.Alive n → w.Keeps w' n

/-- What a call on the heap `i` does with its arguments, where `held` is owned besides them. -/
structure BindsArguments (w : World) (held : List Holding) (i : HeapId) (params : List String)
    (rest : Option String) (args : List Handle) (parent : Option EnvId) : Prop where
  insufficient : (w.bind i params rest args parent).2 =
    .error (.bind (.insufficientArguments params.length args.length)) ↔
      args.length < params.length
  redundant : (w.bind i params rest args parent).2 =
    .error (.bind (.redundantArguments params.length args.length)) ↔
      params.length < args.length ∧ rest = none
  /-- An argument for the list must belong to the heap. -/
  foreign : (w.bind i params rest args parent).2 = .error (.foreign .inNewCell) ↔
    params.length ≤ args.length ∧ rest ≠ none ∧
      ∃ x ∈ args.drop params.length, ∃ r ∈ x, r.cell.heap ≠ i
  success : (∃ e, (w.bind i params rest args parent).2 = .ok e) ↔
    params.length ≤ args.length ∧ (rest = none → args.length = params.length) ∧
      ∀ x ∈ args.drop params.length, ∀ r ∈ x, r.cell.heap = i
  bound : ∀ e, (w.bind i params rest args parent).2 = .ok e → ∃ env surplus cells,
    w.CallScope held params rest args parent (w.bind i params rest args parent).1 e env surplus
      cells
  /-- A call that fails has dropped all arguments. -/
  failed : ∀ f, (w.bind i params rest args parent).2 = .error f →
    w.Abandoned held (w.muted.dropAll args) (w.bind i params rest args parent).1

section Arguments

variable {surplus : Handle} {items : List Slot}

variable (hb : w.Balanced (args.flatMap Handle.holdings ++ held) none)
  (hs : Entered w (.share e :: held) (callBindings params rest args surplus) parent cells e env w')
  (hl : w'.ListAt cells ((args.drop params.length).map Handle.target) surplus.target)

include hb hs

/-- No argument refers to a pair of the list. -/
theorem Entered.surplus_ne {r : Root} (hl : w'.ListAt cells items surplus.target)
    (hr : some r ∈ args) : surplus ≠ some r := by
  rintro rfl
  refine hs.fresh r.cell (hl.mem_cells r.cell rfl) (hb.live (List.mem_append_left _ ?_))
  rw [flatMap_holdings]
  exact List.mem_map_of_mem (List.mem_filterMap.mpr ⟨some r, hr, rfl⟩)

variable (hle : params.length ≤ args.length)

include hl hle

theorem Entered.callScope (hp : ∀ p ∈ parent, w.Alive (.scope p)) :
    w.CallScope held params rest args parent w' e env surplus cells := by
  have hfates : (args ++ rest.toList.map fun _ => surplus).Perm
      (displaced params rest args ++ env.bindings.values ++ args.drop params.length) := by
    rw [hs.bindings]
    exact fates_callBindings hle
  have hnames : (callBindings params rest args surplus).map Prod.fst = params ++ rest.toList :=
    map_fst_callBindings hle
  constructor
  case made => exact ⟨hs.new, hs.scope, hs.parent⟩
  case listed => exact ⟨hl, hs.distinct, hs.fresh⟩
  case last =>
    intro name hname
    rw [hs.bindings]
    exact getElem?_callBindings_rest hle hname
  case parameter =>
    intro k name hk hlast hname
    have hlt : k < args.length := Nat.lt_of_lt_of_le (List.getElem?_eq_some_iff.mp hk).1 hle
    refine ⟨args[k], List.getElem?_eq_getElem hlt, ?_⟩
    rw [hs.bindings]
    exact getElem?_callBindings_param hle hk (List.getElem?_eq_getElem hlt) hlast hname
  case others =>
    intro name hparam hname
    have hnot : name ∉ (callBindings params rest args surplus).map Prod.fst := by
      rw [hnames, List.mem_append, Option.mem_toList]
      exact fun hm => hm.elim hparam hname
    refine ⟨?_, fun s x => hs.resolves_iff hb hp hnot⟩
    rw [hs.bindings, getElem?_lastOf_eq_none.mpr hnot]
  case size => rw [hs.bindings, size_lastOf, hnames]
  case fates => exact hfates
  case owned => exact fun r => hs.owned
  case unlisted =>
    intro r hr h' hi'
    have hmem : some r ∈ args := (List.mem_append.mp hr).elim
      (fun hr => displaced_subset hle hr) fun hr => List.mem_of_mem_drop hr
    refine hs.unlisted hb hmem (fun hbound => ?_) hi'
    -- every argument is owned once, so it has one fate
    have honce : args.count (some r) = 1 := by
      have hnodup := hb.nodup_roots
      rw [heldRoots_append, List.append_assoc, flatMap_holdings, heldRoots_map_root] at hnodup
      rw [← count_filterMap_id]
      exact List.count_eq_one_of_mem (List.nodup_append.mp hnodup).1
        (List.mem_filterMap.mpr ⟨some r, hmem, rfl⟩)
    have hlist : (rest.toList.map fun _ => surplus).count (some r) = 0 := by
      refine List.count_eq_zero.mpr fun hm => ?_
      obtain ⟨-, -, he⟩ := List.mem_map.mp hm
      exact hs.surplus_ne hb hl hmem he
    have hcount := hfates.count_eq (some r)
    have hfirst := List.count_pos_iff.mpr hr
    have hsecond := List.count_pos_iff.mpr hbound
    rw [List.count_append] at hfirst
    rw [List.count_append, List.count_append, List.count_append] at hcount
    omega
  case counts =>
    intro n hn hn'
    have hadd := hs.tally_add hb hl hn hn'
    have hcount := ((hfates.flatMap_right Handle.holdings).map Holding.node).count_eq n
    have hlist : (((rest.toList.map fun _ => surplus).flatMap Handle.holdings).map
        Holding.node).count n = 0 := by
      refine List.count_eq_zero.mpr fun hm => ?_
      rw [node_flatMap_holdings, List.map_map] at hm
      obtain ⟨c, hc, rfl⟩ := List.mem_map.mp hm
      obtain ⟨s, hs', htarget⟩ := List.mem_filterMap.mp hc
      obtain ⟨_, _, rfl⟩ := List.mem_map.mp hs'
      exact hs.fresh c (hl.mem_cells c htarget) hn
    simp only [List.flatMap_append, List.map_append, List.count_append] at hcount
    omega
  case unchanged => exact fun n => hs.keeps_of_alive

end Arguments

section Outcome

variable (hb : w.Balanced (args.flatMap Handle.holdings ++ held) none)
  (hp : ∀ p ∈ parent, w.Alive (.scope p)) (hi : w.heap? i = some h)

include hb hp hi

/-- The outcomes of a call. -/
theorem Balanced.bind_cases (params : List String) (rest : Option String) :
    (args.length < params.length ∧ (w.bind i params rest args parent).2 =
        .error (.bind (.insufficientArguments params.length args.length))) ∨
      (params.length < args.length ∧ rest = none ∧ (w.bind i params rest args parent).2 =
        .error (.bind (.redundantArguments params.length args.length))) ∨
      (params.length ≤ args.length ∧ rest ≠ none ∧
        (∃ x ∈ args.drop params.length, ∃ r ∈ x, r.cell.heap ≠ i) ∧
        (w.bind i params rest args parent).2 = .error (.foreign .inNewCell)) ∨
      (params.length ≤ args.length ∧ (rest = none → args.length = params.length) ∧
        (∀ x ∈ args.drop params.length, ∀ r ∈ x, r.cell.heap = i) ∧
        ∃ e env surplus cells, (w.bind i params rest args parent).2 = .ok e ∧
          w.CallScope held params rest args parent (w.bind i params rest args parent).1 e env
            surplus cells) := by
  rcases Nat.lt_or_ge args.length params.length with hlt | hle
  · refine .inl ⟨hlt, ?_⟩
    simp only [bind, arity, if_pos hlt]
  · by_cases hredundant : params.length < args.length ∧ rest = none
    · refine .inr (.inl ⟨hredundant.1, hredundant.2, ?_⟩)
      simp only [bind, arity, if_neg (Nat.not_lt.mpr hle), if_pos hredundant]
    · have hrest : rest = none → args.length = params.length := fun hnone =>
        Nat.le_antisymm (Nat.le_of_not_lt fun hlt => hredundant ⟨hlt, hnone⟩) hle
      by_cases hhome : ∀ x ∈ args.drop params.length, ∀ r ∈ x, r.cell.heap = i
      · obtain ⟨e, env, surplus, cells, hok, hs, hl⟩ := hb.entered hp hle hi hrest hhome
        exact .inr (.inr (.inr ⟨hle, hrest, hhome, e, env, surplus, cells, hok,
          hs.callScope hb hl hle hp⟩))
      · simp only [not_forall, exists_prop] at hhome
        have hsome : rest ≠ none := by
          rintro rfl
          obtain ⟨x, hx, -⟩ := hhome
          rw [List.drop_eq_nil_of_le (Nat.le_of_eq (hrest rfl))] at hx
          cases hx
        exact .inr (.inr (.inl ⟨hle, hsome, hhome, hb.bind_foreign hp hle hi hsome hhome⟩))

end Outcome

/-- A call binds every parameter to its argument, and the rest parameter to the others. -/
theorem arguments_bound (hm : Moment.Reachable ⟨w, args.flatMap Handle.holdings ++ held, none⟩)
    (hp : ∀ p ∈ parent, w.Alive (.scope p)) (hi : w.heap? i = some h) (params : List String)
    (rest : Option String) : w.BindsArguments held i params rest args parent := by
  have hb : w.Balanced (args.flatMap Handle.holdings ++ held) none := hm.balanced
  have hcases := hb.bind_cases hp hi params rest
  constructor
  case bound =>
    intro e he
    rcases hcases with ⟨-, hout⟩ | ⟨-, -, hout⟩ | ⟨-, -, -, hout⟩ |
      ⟨-, -, -, e', env, surplus, cells, hout, hs⟩
    · cases hout.symm.trans he
    · cases hout.symm.trans he
    · cases hout.symm.trans he
    · cases hout.symm.trans he
      exact ⟨env, surplus, cells, hs⟩
  case failed => exact fun f hf => abandoned_bind hm hp hf
  -- the outcomes exclude each other, and so do their conditions
  all_goals
    rcases hcases with ⟨_, hout⟩ | ⟨_, _, hout⟩ | ⟨_, _, _, hout⟩ | ⟨_, _, _, _, _, _, _, hout, _⟩
    all_goals grind

/-- A scope, and handles to five pairs, the first of which refers to itself. -/
def crowded : Session :=
  let ops : List Op :=
    [.newScope "p" none,
      .allocate (.pair .null .null) false (some "a"),
      .write "a" .first "a",
      .allocate (.pair .null .null) false (some "b"),
      .allocate (.pair .null .null) false (some "c"),
      .allocate (.pair .null .null) false (some "d"),
      .allocate (.pair .null .null) false (some "e")]
  ops.foldl (fun s op => (s.performOp 1 op).1) (.new [.own { initialCapacity := 6 }])

theorem crowded_reachable : crowded.Reachable :=
  .foldl (.new _ _) 1 _

/-- The first parameter is displaced by the second and is swept when the list is made, the third
by the list. -/
theorem arguments_bound_crowded :
    let w := crowded.world
    let args := ["a", "b", "c", "d", "e"].map crowded.handle
    crowded.holdings = args.flatMap Handle.holdings ++ [.share 0] ∧
      ((w.bind 1 ["x", "x", "y"] (some "y") args (some 0)).1.heap? 1).map Heap.stats =
        some { counters := { allocations := 7, eagerFrees := 1, collections := 1, swept := 1 },
               liveObjects := 5, roots := 2, capacity := 9 } ∧
      w.BindsArguments [.share 0] 1 ["x", "x", "y"] (some "y") args (some 0) := by
  intro w args
  have hheld : crowded.holdings = args.flatMap Handle.holdings ++ [.share 0] := by
    unfold args
    cbv
  have hm : Moment.Reachable ⟨w, args.flatMap Handle.holdings ++ [.share 0], none⟩ :=
    hheld ▸ crowded_reachable.moment
  have hb : w.Balanced (args.flatMap Handle.holdings ++ [.share 0]) none := hm.balanced
  have hp : ∀ p ∈ some 0, w.Alive (.scope p) := by
    intro p hp
    cases hp
    exact hb.env_of_share (List.mem_append_right _ List.mem_cons_self)
  obtain ⟨h, hi⟩ : ∃ h, w.heap? 1 = some h := by
    refine Option.isSome_iff_exists.mp ?_
    unfold w
    cbv
  refine ⟨hheld, ?_, arguments_bound hm hp hi _ _⟩
  unfold w args
  cbv

/-- On the second heap an argument of the first does not go into the list, though there are
enough arguments and not too many. -/
theorem surplus_refused :
    let w := Session.mixed.world
    let args := ["a", "b"].map Session.mixed.handle
    Session.mixed.Reachable ∧
      Session.mixed.holdings = args.flatMap Handle.holdings ++
        (Session.mixed.handle "c").holdings ∧
      ¬args.length < ["x"].length ∧ ¬(["x"].length < args.length ∧ some "y" = none) ∧
      ∀ e, (w.bind 2 ["x"] (some "y") args none).2 ≠ .ok e := by
  intro w args
  have hbind : (w.bind 2 ["x"] (some "y") args none).2 = .error (.foreign .inNewCell) := by
    unfold w args
    cbv
  refine ⟨.op (.op (.op (.new _ _) 2 _) 1 _) 1 _, ?_, by decide, by simp, fun e he => ?_⟩
  · unfold args
    cbv
  · cases hbind.symm.trans he

end World

end HybridHeap
