import HybridHeap.Proofs.Session.Threshold
import HybridHeap.Proofs.World.Disposal

/-!
The order in which references are dropped does not matter, as long as no drop can start a
collection: the same cells stay alive, with the same values and counts, on the same lists,
and every total is the same. Only what is reported on the way may come in another order.
-/

namespace HybridHeap

/-- On every heap either drops of roots do not check the threshold, or allocations do. -/
def World.Untriggered (w : World) : Prop :=
  ∀ i h, w.heap? i = some h →
    h.config.collectOnRelease = false ∨ h.config.collectOnAllocate = true

/-- Where allocations check the thresholds, drops have no reason to collect. -/
theorem Moment.Reachable.guarded {m : Moment} (hm : m.Reachable) (hu : m.world.Untriggered) :
    m.world.Guarded := by
  intro i h hi
  obtain hoff | hon := hu i h hi
  · exact .inl hoff
  · exact .inr ⟨hon, hm.within hi hon⟩

/-- Something that a script owns by a name: the handle in a register, a value kept off the
heaps, a share of an environment. -/
inductive Possession
  | handle (name : String)
  | kept (name : String)
  | scope (name : String)

/-- The operation that drops it. -/
def Possession.drop : Possession → Op
  | handle name => .drop name
  | kept name => .dropHeld name
  | scope name => .dropScope name

namespace Session

variable {s : Session} {p q : Possession} {ps qs : List Possession}

/-- The session without what was reported. -/
def calm (s : Session) : Session :=
  s.onWorld World.calm

/-- Drop possessions one after the other. -/
def dropEach (s : Session) (i : HeapId) (ps : List Possession) : Session :=
  ps.foldl (fun s p => (s.performOp i p.drop).1) s

/-- The session with one possession less, and the world as it was. -/
def without (s : Session) : Possession → Session
  | .handle name => { s with registers := s.registers.erase name }
  | .kept name => { s with held := s.held.erase name }
  | .scope name => { s with scopes := s.scopes.erase name }

/-- What has to be let go of with a possession; nothing if there is no such register. -/
def dues (s : Session) : Possession → List Chore
  | .handle name => (s.handle name).toList.map .dropRoot
  | .kept name =>
    ((s.held[name]?).getD .null).anchors.map .dropAnchor ++
      ((s.held[name]?).getD .null).env?.toList.map .leave
  | .scope name => (s.scopes[name]?).toList.map .leave

theorem performOp_drop (s : Session) (i : HeapId) (p : Possession) :
    (s.performOp i p.drop).1 = (s.without p).onWorld (·.settle (s.dues p)) := by
  cases p with
  | handle name =>
      have hroot : ([s.handle name].filterMap id).map Chore.dropRoot =
          (s.handle name).toList.map .dropRoot := by
        cases s.handle name <;> rfl
      simp only [Possession.drop, performOp, take, World.drop, World.dropAll, hroot]
      rfl
  | kept name =>
      simp only [Possession.drop, performOp, without, dues]
      cases hn : s.held[name]? with
      | none =>
          rw [erase_eq_self hn]
          exact congrArg (fun w => { s with world := w }) s.world.settle_nil.symm
      | some v => rfl
  | scope name =>
      simp only [Possession.drop, performOp, without, dues]
      cases hn : s.scopes[name]? with
      | none =>
          rw [erase_eq_self hn]
          exact congrArg (fun w => { s with world := w }) s.world.settle_nil.symm
      | some e => rfl

/-- The session with several possessions less. -/
def withoutAll (s : Session) (ps : List Possession) : Session :=
  ps.foldl without s

/-- What has to be let go of with several possessions. -/
def duesOfAll (s : Session) : List Possession → List Chore
  | [] => []
  | p :: ps => s.dues p ++ (s.without p).duesOfAll ps

theorem withoutAll_onWorld (s : Session) (f : World → World) (ps : List Possession) :
    (s.onWorld f).withoutAll ps = (s.withoutAll ps).onWorld f := by
  induction ps generalizing s with
  | nil => rfl
  | cons p ps ih =>
      simp only [withoutAll, List.foldl_cons] at ih ⊢
      rw [← ih]
      cases p <;> rfl

@[simp] theorem world_withoutAll (s : Session) (ps : List Possession) :
    (s.withoutAll ps).world = s.world := by
  induction ps generalizing s with
  | nil => rfl
  | cons p ps ih =>
      refine (ih (s.without p)).trans ?_
      cases p <;> rfl

theorem duesOfAll_onWorld (s : Session) (f : World → World) (ps : List Possession) :
    (s.onWorld f).duesOfAll ps = s.duesOfAll ps := by
  induction ps generalizing s with
  | nil => rfl
  | cons p ps ih =>
      simp only [duesOfAll]
      rw [← ih (s.without p)]
      cases p <;> rfl

theorem dropEach_eq (s : Session) (i : HeapId) (ps : List Possession) :
    s.dropEach i ps = (s.withoutAll ps).onWorld (·.settle (s.duesOfAll ps)) := by
  induction ps generalizing s with
  | nil => exact congrArg (fun w => { s with world := w }) s.world.settle_nil.symm
  | cons p ps ih =>
      have hrest := ih (s.performOp i p.drop).1
      rw [performOp_drop, withoutAll_onWorld, duesOfAll_onWorld] at hrest
      rw [dropEach, List.foldl_cons, performOp_drop]
      refine hrest.trans ?_
      simp only [withoutAll, List.foldl_cons, duesOfAll, onWorld, World.settle_append]

/-- Taking one possession away leaves the others. -/
theorem dues_without (s : Session) (hpq : p ≠ q) : (s.without p).dues q = s.dues q := by
  have herase : ∀ {β : Type} (t : Std.ExtTreeMap String β) {a b : String}, a ≠ b →
      (t.erase a)[b]? = t[b]? := by
    intro β t a b hab
    rw [Std.ExtTreeMap.getElem?_erase, if_neg (by simpa using hab)]
  cases p with
  | handle a =>
      cases q with
      | handle b =>
          have hab : a ≠ b := fun hab => hpq (congrArg Possession.handle hab)
          simp only [dues, without, handle, herase _ hab]
      | kept b => rfl
      | scope b => rfl
  | kept a =>
      cases q with
      | handle b => rfl
      | kept b =>
          have hab : a ≠ b := fun hab => hpq (congrArg Possession.kept hab)
          simp only [dues, without, herase _ hab]
      | scope b => rfl
  | scope a =>
      cases q with
      | handle b => rfl
      | kept b => rfl
      | scope b =>
          have hab : a ≠ b := fun hab => hpq (congrArg Possession.scope hab)
          simp only [dues, without, herase _ hab]

theorem without_comm (s : Session) (p q : Possession) :
    (s.without p).without q = (s.without q).without p := by
  have herase : ∀ {β : Type} (t : Std.ExtTreeMap String β) (a b : String),
      (t.erase a).erase b = (t.erase b).erase a := by
    intro β t a b
    apply Std.ExtTreeMap.ext_getElem?
    intro k
    simp only [Std.ExtTreeMap.getElem?_erase]
    split <;> split <;> rfl
  cases p <;> cases q <;> simp only [without, herase]

theorem withoutAll_perm (hp : ps.Perm qs) :
    s.withoutAll ps = s.withoutAll qs ∧ (s.duesOfAll ps).Perm (s.duesOfAll qs) := by
  induction hp generalizing s with
  | nil => exact ⟨rfl, .refl _⟩
  | cons p _ ih =>
      obtain ⟨hsession, hdues⟩ := ih (s := s.without p)
      exact ⟨hsession, hdues.append_left _⟩
  | swap p q ps =>
      have hsession := s.without_comm q p
      refine ⟨congrArg (withoutAll · ps) hsession, ?_⟩
      simp only [duesOfAll, hsession, ← List.append_assoc]
      by_cases hpq : p = q
      · rw [hpq]
      · rw [dues_without s hpq, dues_without s (Ne.symm hpq)]
        exact List.perm_append_comm.append_right _
  | trans _ _ ih ih' => exact ⟨ih.1.trans ih'.1, ih.2.trans ih'.2⟩

/-- What a session owns is what goes with a possession, and what is left. -/
theorem holdings_without (s : Session) (p : Possession) :
    s.holdings.Perm ((s.dues p).map Chore.holding ++ (s.without p).holdings) := by
  rw [List.perm_iff_count]
  intro x
  cases p with
  | handle name =>
      have hp := flatMap_values_perm s.registers Handle.holdings name (d := none) rfl
      have hdues : (s.dues (.handle name)).map Chore.holding = (s.handle name).holdings := by
        rw [dues, List.map_map]
        rfl
      have hcount := hp.count_eq x
      rw [hdues]
      simp only [holdings, without, handle, List.count_append] at hcount ⊢
      omega
  | kept name =>
      have hp := flatMap_values_perm s.held Value.holdings name (d := .null) rfl
      have hdues : (s.dues (.kept name)).map Chore.holding =
          ((s.held[name]?).getD .null).holdings := by
        rw [dues, List.map_append, List.map_map, List.map_map]
        rfl
      have hcount := hp.count_eq x
      rw [hdues]
      simp only [holdings, without, List.count_append] at hcount ⊢
      omega
  | scope name =>
      have hp : s.scopes.values.Perm
          ((s.scopes[name]?).toList ++ (s.scopes.erase name).values) := by
        cases hn : s.scopes[name]? with
        | none => rw [erase_eq_self hn]; exact .refl _
        | some e => exact values_perm_of_getElem? hn
      have hdues : (s.dues (.scope name)).map Chore.holding =
          (s.scopes[name]?).toList.flatMap fun e => [Holding.share e] := by
        rw [dues]
        cases s.scopes[name]? <;> rfl
      have hcount := (hp.flatMap_right fun e => [Holding.share e]).count_eq x
      rw [hdues]
      simp only [holdings, without, List.flatMap_append, List.count_append] at hcount ⊢
      omega

theorem holdings_withoutAll (s : Session) (ps : List Possession) :
    s.holdings.Perm ((s.duesOfAll ps).map Chore.holding ++ (s.withoutAll ps).holdings) := by
  induction ps generalizing s with
  | nil => exact .refl _
  | cons p ps ih =>
      refine (s.holdings_without p).trans ?_
      rw [duesOfAll, List.map_append, List.append_assoc]
      exact (ih (s.without p)).append_left _

/-- The order of dropping does not matter. Possessions may be dropped in any order; and
whatever is to be let go of at any moment, in the course of an operation too, may be let go
of in any order, and so may the variables of the environments that are destroyed with it and
the payloads of the cells that are freed with it, whichever is next at any time. -/
structure OrderIndependent (s : Session) : Prop where
  drops : ∀ (i : HeapId) (ps qs : List Possession), ps.Perm qs →
    (s.dropEach i ps).calm = (s.dropEach i qs).calm
  disposals : ∀ (i : HeapId) (ps : List Possession) (w : World),
    s.world.Disposes (s.duesOfAll ps) w → w.calm = (s.dropEach i ps).world.calm
  always : ∀ m : Moment, m.Reachable → m.world.Untriggered →
    ∀ (chores chores' : List Chore) (held : List Holding) (w w' : World),
      m.held.Perm (chores.map Chore.holding ++ held) → chores.Perm chores' →
      m.world.Disposes chores w → m.world.Disposes chores' w' → w.calm = w'.calm

theorem order_independent (hs : s.Reachable) (hu : s.world.Untriggered) :
    s.OrderIndependent := by
  have halways : ∀ m : Moment, m.Reachable → m.world.Untriggered →
      ∀ (chores chores' : List Chore) (held : List Holding) (w w' : World),
        m.held.Perm (chores.map Chore.holding ++ held) → chores.Perm chores' →
        m.world.Disposes chores w → m.world.Disposes chores' w' → w.calm = w'.calm := by
    intro m hm hu chores chores' held w w' hheld hp hd hd'
    have hbalanced : m.world.Balanced m.held m.write := hm.balanced
    exact hd.unique hd' hp (hbalanced.perm hheld) (hm.guarded hu)
  constructor
  case drops =>
    intro i ps qs hp
    obtain ⟨hsession, hdues⟩ := withoutAll_perm (s := s) hp
    have hworld := halways ⟨s.world, s.holdings, none⟩ hs.moment hu _ _ _ _ _
      (s.holdings_withoutAll ps) hdues (.settle s.world _) (.settle s.world _)
    simp only [dropEach_eq, hsession, calm, onWorld, world_withoutAll, hworld]
  case disposals =>
    intro i ps w hd
    have hworld := halways ⟨s.world, s.holdings, none⟩ hs.moment hu _ _ _ _ _
      (s.holdings_withoutAll ps) (.refl _) hd (.settle s.world _)
    rw [dropEach_eq, onWorld, world_withoutAll]
    exact hworld
  case always => exact halways

/-- A pair of references to a closure, which goes together with its environment only when
the last reference to it is dropped, whichever it is. -/
theorem order_independent_closure :
    let s := (([.newScope "e" none, .allocate (.closure .sealed "e") false (some "c"),
      .allocate (.pair (.copy "c") (.copy "c")) false (some "p")] : List Op).foldl
        (fun s op => (s.performOp 1 op).1) (new []))
    ((s.dropEach 1 [.scope "e", .handle "p", .handle "c"]).world.heap? 1).map Heap.stats =
        some { counters := { allocations := 2, eagerFrees := 2 }, liveObjects := 0, roots := 0,
               capacity := 4096 } ∧
      s.OrderIndependent := by
  intro s
  have hconfigs : s.world.heaps.toList.map Heap.config = [{}, {}] := by
    unfold s
    cbv
  refine ⟨by unfold s; cbv, order_independent (.op (.op (.op (.new _ _) 1 _) 1 _) 1 _) ?_⟩
  intro i h hi
  have hm : h.config ∈ s.world.heaps.toList.map Heap.config :=
    List.mem_map_of_mem (Array.mem_toList_iff.mpr (Array.mem_of_getElem? hi))
  rw [hconfigs] at hm
  simp only [List.mem_cons, List.not_mem_nil, or_false, or_self] at hm
  exact .inr (by rw [hm])

end Session

end HybridHeap
