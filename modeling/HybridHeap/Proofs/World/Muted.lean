import HybridHeap.Proofs.Heap.Muted
import HybridHeap.Proofs.Session.Reachable
import HybridHeap.Proofs.World.Changes

/-!
Two worlds that differ only in whether drops of roots check the thresholds. As long as no
heap is over its threshold when a root is dropped, whatever is done to both has the same
outcome and keeps them alike: `World.Mutes` is the relation, with one lemma for every
operation on worlds and for the evaluator.
-/

namespace HybridHeap

namespace Heap

variable {h h' : Heap}

/-- A guarded heap stays guarded. -/
theorem Heeds.guarded (hk : h.Heeds h') (hg : h.Guarded) : h'.Guarded := by
  rw [Guarded, hk.config]
  obtain hoff | ⟨ht, hw⟩ := hg
  · exact .inl hoff
  · exact .inr ⟨ht, hk.within ht hw⟩

end Heap

namespace World

/-- On no heap can a drop of a root start a collection. -/
def Guarded (w : World) : Prop :=
  ∀ i h, w.heap? i = some h → h.Guarded

/-- The world with the same contents in which drops of roots do not check the thresholds. -/
def muted (w : World) : World :=
  { w with heaps := w.heaps.map Heap.muted }

/-- `w'` is `w` with the triggers of drops muted, and in `w` they would not fire. -/
structure Mutes (w w' : World) : Prop where
  world : w' = w.muted
  guarded : w.Guarded

/-- Two outcomes that are the same but for the muted triggers. -/
structure MutesOutcome {α : Type} (out out' : World × α) : Prop where
  worlds : out.1.Mutes out'.1
  outcome : out'.2 = out.2

variable {w w' : World} {i : HeapId} {h : Heap}

@[simp] theorem heap?_muted (w : World) (i : HeapId) :
    w.muted.heap? i = (w.heap? i).map Heap.muted := by
  simp [heap?, muted]

@[simp] theorem readCell_muted (w : World) (c : CellId) : w.muted.readCell c = w.readCell c := by
  simp only [readCell, heap?_muted]
  cases w.heap? c.heap <;> rfl

@[simp] theorem readSlot_muted (w : World) (s : Slot) : w.muted.readSlot s = w.readSlot s := by
  cases s with
  | none => rfl
  | some c => exact w.readCell_muted c

@[simp] theorem read_muted (w : World) (h : Handle) : w.muted.read h = w.read h :=
  w.readSlot_muted h.target

theorem settle_cons (w : World) (c : Chore) (rest : List Chore) :
    w.settle (c :: rest) = (w.doChore c).1.settle ((w.doChore c).2 ++ rest) := by
  rw [settle]

theorem setHeap_muted (w : World) (i : HeapId) (h : Heap) :
    w.muted.setHeap i h.muted = (w.setHeap i h).muted := by
  simp [setHeap, muted]

theorem Guarded.setHeap (hg : w.Guarded) (hi : w.heap? i = some h) {h' : Heap}
    (hk : h.Heeds h') : (w.setHeap i h').Guarded := by
  intro j k hj
  obtain ⟨k₀, hj₀, hk₀⟩ := (HeapsTurn.setHeap Heap.Heeds.refl hi hk).exists_of_some_right hj
  exact hk₀.guarded (hg j k₀ hj₀)

namespace Mutes

variable {α : Type}

theorem outcome (hm : w.Mutes w') (a : α) : MutesOutcome (w, a) (w', a) :=
  ⟨hm, rfl⟩

theorem heap? (hm : w.Mutes w') (i : HeapId) : w'.heap? i = (w.heap? i).map Heap.muted := by
  rw [hm.world, heap?_muted]

theorem envs (hm : w.Mutes w') : w'.envs = w.envs := by
  rw [hm.world, muted]

theorem nextCell (hm : w.Mutes w') : w'.nextCell = w.nextCell := by
  rw [hm.world, muted]

theorem readCell (hm : w.Mutes w') (c : CellId) : w'.readCell c = w.readCell c := by
  rw [hm.world, readCell_muted]

theorem readSlot (hm : w.Mutes w') (s : Slot) : w'.readSlot s = w.readSlot s := by
  rw [hm.world, readSlot_muted]

theorem read (hm : w.Mutes w') (h : Handle) : w'.read h = w.read h := by
  rw [hm.world, read_muted]

theorem setHeap (hm : w.Mutes w') (hi : w.heap? i = some h) {h' : Heap} (hk : h.Heeds h') :
    (w.setHeap i h').Mutes (w'.setHeap i h'.muted) where
  world := by rw [hm.world, setHeap_muted]
  guarded := hm.guarded.setHeap hi hk

theorem commit (hm : w.Mutes w') (hi : w.heap? i = some h) {r : Reclamation}
    (hk : h.Heeds r.heap) : MutesOutcome (w.commit i r) (w'.commit i r.muted) where
  worlds :=
    { world := by
        obtain ⟨rfl, -⟩ := hm
        simp only [World.commit, Reclamation.heap_muted, setHeap_muted]
        rfl
      guarded := hm.guarded.setHeap hi hk }
  outcome := rfl

/-- Work that a heap does alike whether it is muted or not. -/
theorem reclaim (hm : w.Mutes w') (i : HeapId) {work : Heap → Reclamation}
    (hwork : ∀ h : Heap, h.Guarded → work h.muted = (work h).muted ∧ h.Heeds (work h).heap) :
    MutesOutcome (w.reclaim i work) (w'.reclaim i work) := by
  simp only [World.reclaim, hm.heap?]
  cases hi : w.heap? i with
  | none => exact hm.outcome []
  | some h =>
      obtain ⟨heq, hk⟩ := hwork h (hm.guarded i h hi)
      simp only [Option.map_some, heq]
      exact hm.commit hi hk

theorem leave (hm : w.Mutes w') (e : EnvId) : MutesOutcome (w.leave e) (w'.leave e) := by
  obtain ⟨rfl, hg⟩ := hm
  have henvs : w.muted.envs = w.envs := rfl
  simp only [World.leave, henvs]
  split
  · exact ⟨⟨rfl, hg⟩, rfl⟩
  · split
    · exact ⟨⟨rfl, hg⟩, rfl⟩
    · exact ⟨⟨rfl, hg⟩, rfl⟩

theorem doChore (hm : w.Mutes w') (c : Chore) : MutesOutcome (w.doChore c) (w'.doChore c) := by
  cases c with
  | dropRoot r =>
      exact hm.reclaim _ fun h hg => ⟨Heap.dropRoot_muted hg r, (h.changes_dropRoot r).heeds⟩
  | dropAnchor r =>
      exact hm.reclaim _ fun h _ => ⟨h.dropAnchor_muted r, (h.changes_dropAnchor r).heeds⟩
  | leave e => exact hm.leave e

theorem settle (hm : w.Mutes w') (chores : List Chore) :
    (w.settle chores).Mutes (w'.settle chores) := by
  fun_induction World.settle w chores generalizing w' with
  | case1 w =>
      rw [World.settle_nil]
      exact hm
  | case2 w c rest ih =>
      have hdone := hm.doChore c
      rw [settle_cons, hdone.outcome]
      exact ih hdone.worlds

theorem finish (hm : w.Mutes w') (hi : w.heap? i = some h) {r : Reclamation}
    (hk : h.Heeds r.heap) : (w.finish i r).Mutes (w'.finish i r.muted) := by
  have hdone := hm.commit hi hk
  rw [World.finish, World.finish, hdone.outcome]
  exact hdone.worlds.settle _

theorem work (hm : w.Mutes w') (i : HeapId) {f : Heap → Reclamation}
    (hf : ∀ h : Heap, f h.muted = (f h).muted ∧ h.Heeds (f h).heap) :
    (w.work i f).Mutes (w'.work i f) := by
  simp only [World.work, hm.heap?]
  cases hi : w.heap? i with
  | none => exact hm
  | some h =>
      simp only [Option.map_some, (hf h).1]
      exact hm.finish hi (hf h).2

theorem drop (hm : w.Mutes w') (h : Handle) : (w.drop h).Mutes (w'.drop h) :=
  hm.settle _

section Cells

theorem root (hm : w.Mutes w') (s : Slot) : MutesOutcome (w.root s) (w'.root s) := by
  cases s with
  | none => exact hm.outcome none
  | some c =>
      simp only [World.root, hm.heap?]
      cases hi : w.heap? c.heap with
      | none => exact hm.outcome none
      | some h =>
          simp only [Option.map_some, Heap.register_muted]
          exact (hm.setHeap hi (h.changes_register c).heeds).outcome _

theorem clone (hm : w.Mutes w') (h : Handle) : MutesOutcome (w.clone h) (w'.clone h) :=
  hm.root h.target

theorem cloneAll (hm : w.Mutes w') (hs : List Handle) :
    MutesOutcome (w.cloneAll hs) (w'.cloneAll hs) := by
  induction hs generalizing w w' with
  | nil => exact hm.outcome []
  | cons h hs ih =>
      have hclone := hm.clone h
      have hrest := ih hclone.worlds
      simp only [World.cloneAll]
      exact ⟨hrest.worlds, by rw [hclone.outcome, hrest.outcome]⟩

theorem allocate (hm : w.Mutes w') (i : HeapId) (v : Value Handle) :
    MutesOutcome (w.allocate i v) (w'.allocate i v) := by
  simp only [World.allocate, hm.heap?]
  split
  · cases hi : w.heap? i with
    | none => exact (hm.settle _).outcome _
    | some h =>
        have hnext : { w with nextCell := w.nextCell + 1 }.Mutes
            { w' with nextCell := w.nextCell + 1 } := by
          obtain ⟨rfl, hg⟩ := hm
          exact ⟨rfl, hg⟩
        simp only [Option.map_some, Heap.place_muted, hm.nextCell]
        exact (hnext.finish hi (h.heeds_place _ v)).outcome _
  · exact (hm.settle _).outcome _

theorem consAll (hm : w.Mutes w') (i : HeapId) (tail : Handle) (items : List Handle) :
    MutesOutcome (w.consAll i tail items) (w'.consAll i tail items) := by
  induction items generalizing w w' tail with
  | nil => exact hm.outcome _
  | cons item earlier ih =>
      have hpair := hm.allocate i (.pair item tail)
      simp only [World.consAll]
      generalize w.allocate i (.pair item tail) = out at hpair ⊢
      generalize w'.allocate i (.pair item tail) = out' at hpair ⊢
      obtain ⟨w₁, a⟩ := out
      obtain ⟨w₁', a'⟩ := out'
      obtain ⟨hm₁, rfl⟩ := hpair
      cases a' with
      | ok h => exact ih hm₁ h
      | error e => exact (hm₁.settle _).outcome _

theorem list (hm : w.Mutes w') (i : HeapId) (items : List Handle) :
    MutesOutcome (w.list i items) (w'.list i items) :=
  hm.consAll i none items.reverse

theorem get (hm : w.Mutes w') (h : Handle) (p : Position) :
    MutesOutcome (w.get h p) (w'.get h p) := by
  simp only [World.get, hm.readCell]
  split
  · exact hm.outcome _
  · split
    · exact hm.outcome _
    · rename_i s _
      have hroot := hm.root s
      exact ⟨hroot.worlds, congrArg Except.ok hroot.outcome⟩

theorem vectorSize (hm : w.Mutes w') (h : Handle) : w'.vectorSize h = w.vectorSize h := by
  simp only [World.vectorSize, hm.readCell]

theorem set (hm : w.Mutes w') (h : Handle) (v : Value Handle) :
    MutesOutcome (w.set h v) (w'.set h v) := by
  simp only [World.set, hm.readCell]
  split
  · exact (hm.settle _).outcome _
  · rename_i c _
    split
    · have hswapped : (w.modifyHeap c.heap fun h => h.swap c v).Mutes
          (w'.modifyHeap c.heap fun h => h.swap c v) := by
        simp only [modifyHeap, hm.heap?]
        cases hi : w.heap? c.heap with
        | none => exact hm
        | some h =>
            simp only [Option.map_some, Heap.swap_muted]
            exact hm.setHeap hi (h.changes_swap c v).heeds
      have hsettled := hswapped.settle ((w.readCell c).env?.toList.map .leave)
      exact (hsettled.work c.heap fun h =>
        ⟨h.finishWrite_muted v.anchors, (h.changes_finishWrite v.anchors).heeds⟩).outcome _
    · exact (hm.settle _).outcome _

theorem edit (hm : w.Mutes w') (h target : Handle)
    {change : Heap → CellId → Slot → Except AccessError Reclamation}
    (hc : ∀ (h : Heap) c t, change h.muted c t = (change h c t).map Reclamation.muted)
    (hk : ∀ (h : Heap) c t r, change h c t = .ok r → h.Heeds r.heap) :
    MutesOutcome (w.edit h target change) (w'.edit h target change) := by
  simp only [World.edit, hm.heap?]
  split
  · exact hm.outcome _
  · rename_i c _
    split
    · cases hi : w.heap? c.heap with
      | none => exact hm.outcome _
      | some heap =>
          simp only [Option.map_some, hc]
          cases hr : change heap c target.target with
          | error e => exact hm.outcome _
          | ok r => exact (hm.finish hi (hk heap c _ r hr)).outcome _
    · exact hm.outcome _

theorem write (hm : w.Mutes w') (h : Handle) (p : Position) (target : Handle) :
    MutesOutcome (w.write h p target) (w'.write h p target) :=
  hm.edit h target (fun h c t => h.write_muted c p t) fun h _ _ _ hw => (h.changes_write hw).heeds

theorem push (hm : w.Mutes w') (h target : Handle) :
    MutesOutcome (w.push h target) (w'.push h target) :=
  hm.edit h target (fun h c t => h.append_muted c t) fun h _ _ _ hw => (h.changes_append hw).heeds

theorem collectNow (hm : w.Mutes w') (i : HeapId) : (w.collectNow i).Mutes (w'.collectNow i) :=
  hm.work i fun h => ⟨h.collectNow_muted, h.changes_collectNow.heeds⟩

end Cells

section Scopes

theorem shareEnv (hm : w.Mutes w') (e : EnvId) : (w.shareEnv e).Mutes (w'.shareEnv e) := by
  obtain ⟨rfl, hg⟩ := hm
  exact ⟨rfl, hg⟩

theorem newEnv (hm : w.Mutes w') (parent : Option EnvId) :
    MutesOutcome (w.newEnv parent) (w'.newEnv parent) := by
  obtain ⟨rfl, hg⟩ := hm
  cases parent with
  | none => exact ⟨⟨rfl, hg⟩, rfl⟩
  | some p => exact ⟨⟨rfl, hg⟩, rfl⟩

theorem localBinding? (hm : w.Mutes w') (e : EnvId) (name : String) :
    w'.localBinding? e name = w.localBinding? e name := by
  simp only [World.localBinding?, hm.envs]

theorem rebind (hm : w.Mutes w') (e : EnvId) (name : String) (h : Handle) :
    MutesOutcome (w.rebind e name h) (w'.rebind e name h) := by
  obtain ⟨rfl, hg⟩ := hm
  exact ⟨⟨rfl, hg⟩, rfl⟩

theorem define (hm : w.Mutes w') (e : EnvId) (name : String) (h : Handle) :
    (w.define e name h).Mutes (w'.define e name h) := by
  have hrebound := hm.rebind e name h
  simp only [World.define, hrebound.outcome]
  exact hrebound.worlds.drop _

theorem defineAll (hm : w.Mutes w') (e : EnvId) (bindings : List (String × Handle)) :
    (w.defineAll e bindings).Mutes (w'.defineAll e bindings) := by
  induction bindings generalizing w w' with
  | nil => exact hm
  | cons b bindings ih => exact ih (hm.define e b.1 b.2)

theorem nearest (hm : w.Mutes w') (name : String) (e : EnvId) :
    w'.nearest name e = w.nearest name e := by
  fun_induction World.nearest w name e with
  | case1 e he =>
      rw [World.nearest]
      simp only [hm.envs, he]
  | case2 e env he hc =>
      rw [World.nearest]
      simp only [hm.envs, he, hc, if_true]
  | case3 e env he hc hp =>
      rw [World.nearest]
      simp only [hm.envs, he, hc, hp]
      rfl
  | case4 e env he hc p hp hlt ih =>
      rw [World.nearest]
      simp only [hm.envs, he, hc, hp, hlt, if_true, ih]
      rfl
  | case5 e env he hc p hp hlt =>
      rw [World.nearest]
      simp only [hm.envs, he, hc, hp, hlt, if_false]
      rfl

theorem lookup (hm : w.Mutes w') (e : EnvId) (name : String) :
    MutesOutcome (w.lookup e name) (w'.lookup e name) := by
  have hlocal : ∀ e, w'.localBinding? e name = w.localBinding? e name :=
    fun e => hm.localBinding? e name
  simp only [World.lookup, hm.nearest, hlocal]
  split
  · exact hm.outcome _
  · rename_i h _
    have hclone := hm.clone h
    exact ⟨hclone.worlds, congrArg some hclone.outcome⟩

theorem assign (hm : w.Mutes w') (e : EnvId) (name : String) (h : Handle) :
    MutesOutcome (w.assign e name h) (w'.assign e name h) := by
  simp only [World.assign, hm.nearest]
  split
  · exact (hm.drop h).outcome _
  · rename_i scope _
    have hcopy := hm.clone h
    have hrebound := hcopy.worlds.rebind scope name (w.clone h).2
    simp only [hcopy.outcome, hrebound.outcome]
    exact ((hrebound.worlds.drop _).drop h).outcome _

theorem bind (hm : w.Mutes w') (i : HeapId) (params : List String) (rest : Option String)
    (args : List Handle) (parent : Option EnvId) :
    MutesOutcome (w.bind i params rest args parent) (w'.bind i params rest args parent) := by
  simp only [World.bind]
  split
  · exact (hm.settle _).outcome _
  · have hscope := hm.newEnv parent
    have hbound := hscope.worlds.defineAll (w.newEnv parent).2 (params.zip args)
    rw [hscope.outcome]
    cases rest with
    | none => exact hbound.outcome _
    | some name =>
        have hlist := hbound.list i (args.drop params.length)
        dsimp only
        generalize ((w.newEnv parent).1.defineAll (w.newEnv parent).2 (params.zip args)).list i
          (args.drop params.length) = out at hlist ⊢
        generalize ((w'.newEnv parent).1.defineAll (w.newEnv parent).2 (params.zip args)).list i
          (args.drop params.length) = out' at hlist ⊢
        obtain ⟨w₁, a⟩ := out
        obtain ⟨w₁', a'⟩ := out'
        obtain ⟨hm₁, rfl⟩ := hlist
        cases a' with
        | ok h => exact (hm₁.define _ name h).outcome _
        | error f => exact (hm₁.settle _).outcome _

end Scopes

/-- An access that is allowed to fail. -/
theorem getOrNull (hm : w.Mutes w') (h : Handle) (p : Position) :
    MutesOutcome
      (match w.get h p with
        | (w, .ok h) => ((w, .ok h) : World × Except Failure Handle)
        | (w, .error _) => (w, .ok none))
      (match w'.get h p with
        | (w, .ok h) => (w, .ok h)
        | (w, .error _) => (w, .ok none)) := by
  have hget := hm.get h p
  generalize w.get h p = out at hget ⊢
  generalize w'.get h p = out' at hget ⊢
  obtain ⟨w₁, a⟩ := out
  obtain ⟨w₁', a'⟩ := out'
  obtain ⟨hm₁, rfl⟩ := hget
  cases a' with
  | ok h => exact hm₁.outcome _
  | error f => exact hm₁.outcome _

theorem callPrimitive (hm : w.Mutes w') (i : HeapId) (p : Primitive) (args : List Handle) :
    MutesOutcome (w.callPrimitive i p args) (w'.callPrimitive i p args) := by
  cases p with
  | nothing => exact hm.outcome _
  | identity =>
      have hclone := hm.clone (args.getD 0 none)
      exact ⟨hclone.worlds, congrArg Except.ok hclone.outcome⟩
  | add =>
      simp only [World.callPrimitive, hm.read]
      exact hm.allocate i _
  | cons =>
      have hfirst := hm.clone (args.getD 0 none)
      have hsecond := hfirst.worlds.clone (args.getD 1 none)
      simp only [World.callPrimitive, hfirst.outcome, hsecond.outcome]
      exact hsecond.worlds.allocate i _
  | car => exact hm.getOrNull _ .first
  | cdr => exact hm.getOrNull _ .second
  | list =>
      have hitems := hm.cloneAll args
      simp only [World.callPrimitive, hitems.outcome]
      exact hitems.worlds.list i _
  | vector =>
      have hitems := hm.cloneAll args
      simp only [World.callPrimitive, hitems.outcome]
      exact hitems.worlds.allocate i _
  | gc => exact (hm.collectNow i).outcome _

theorem discardFrame (hm : w.Mutes w') (f : Frame) : (f.discard w).Mutes (f.discard w') := by
  cases f with
  | operator env args => exact hm
  | argument env procedure done rest => exact (hm.settle _).drop procedure
  | release procedure => exact hm.drop procedure
  | leave scope => exact hm.settle _

theorem discardTask (hm : w.Mutes w') (t : Task) : (t.discard w).Mutes (t.discard w') := by
  cases t with
  | eval env e => exact hm
  | apply procedure args => exact hm.settle _
  | finish outcome =>
      cases outcome with
      | ok h => exact hm.drop h
      | error f => exact hm

end Mutes

end World

namespace Evaluation

/-- Two evaluations that are the same but for the muted triggers. -/
structure Mutes (s s' : Evaluation) : Prop where
  worlds : s.world.Mutes s'.world
  task : s'.task = s.task
  frames : s'.frames = s.frames

variable {s s' : Evaluation} {w w' : World}

theorem mutes_proceed (hm : w.Mutes w') (env : EnvId) (procedure : Handle) (done : List Handle)
    (rest : List Expr) (frames : List Frame) :
    (proceed w env procedure done rest frames).Mutes
      (proceed w' env procedure done rest frames) := by
  cases rest with
  | nil => exact ⟨hm, rfl, rfl⟩
  | cons e rest => exact ⟨hm, rfl, rfl⟩

theorem mutes_stepEval (hm : w.Mutes w') (i : HeapId) (env : EnvId) (e : Expr)
    (frames : List Frame) : (stepEval i w env e frames).Mutes (stepEval i w' env e frames) := by
  cases e with
  | int n =>
      have hint := hm.allocate i (.integer n)
      exact ⟨hint.worlds, congrArg Task.finish hint.outcome, rfl⟩
  | var name =>
      have hlookup := hm.lookup env name
      simp only [stepEval]
      generalize w.lookup env name = out at hlookup ⊢
      generalize w'.lookup env name = out' at hlookup ⊢
      obtain ⟨w₁, a⟩ := out
      obtain ⟨w₁', a'⟩ := out'
      obtain ⟨hm₁, rfl⟩ := hlookup
      cases a' with
      | some h => exact ⟨hm₁, rfl, rfl⟩
      | none => exact ⟨hm₁, rfl, rfl⟩
  | lambda params rest body =>
      have hclosure :=
        (hm.shareEnv env).allocate i (.closure (.lambda { params, rest, body }) env)
      exact ⟨hclosure.worlds, congrArg Task.finish hclosure.outcome, rfl⟩
  | call callee args => exact ⟨hm, rfl, rfl⟩

theorem mutes_stepApply (hm : w.Mutes w') (i : HeapId) (procedure : Handle) (args : List Handle)
    (frames : List Frame) :
    (stepApply i w procedure args frames).Mutes (stepApply i w' procedure args frames) := by
  simp only [stepApply, hm.read]
  split
  · rename_i p _
    have hcall := hm.callPrimitive i p args
    exact ⟨hcall.worlds.settle _, congrArg Task.finish hcall.outcome, rfl⟩
  · rename_i l env _
    have hbind := hm.bind i l.params l.rest args (some env)
    generalize w.bind i l.params l.rest args (some env) = out at hbind ⊢
    generalize w'.bind i l.params l.rest args (some env) = out' at hbind ⊢
    obtain ⟨w₁, a⟩ := out
    obtain ⟨w₁', a'⟩ := out'
    obtain ⟨hm₁, rfl⟩ := hbind
    cases a' with
    | ok scope => exact ⟨hm₁, rfl, rfl⟩
    | error f => exact ⟨hm₁, rfl, rfl⟩
  · exact ⟨hm.settle _, rfl, rfl⟩

theorem mutes_stepFinish (hm : w.Mutes w') (outcome : Except Failure Handle) (frame : Frame)
    (frames : List Frame) :
    (stepFinish w outcome frame frames).Mutes (stepFinish w' outcome frame frames) := by
  simp only [stepFinish]
  split
  · exact mutes_proceed hm _ _ _ _ _
  · exact mutes_proceed hm _ _ _ _ _
  · exact ⟨hm.discardFrame frame, rfl, rfl⟩

theorem Mutes.abandon (hm : s.Mutes s') : s.abandon.Mutes s'.abandon := by
  have hframes : ∀ (frames : List Frame) {w w' : World}, w.Mutes w' →
      (frames.foldl Frame.discard w).Mutes (frames.foldl Frame.discard w') := by
    intro frames
    induction frames with
    | nil => exact id
    | cons f frames ih => exact fun hm => ih (hm.discardFrame f)
  rw [Evaluation.abandon, Evaluation.abandon, hm.frames, hm.task]
  exact hframes s.frames (hm.worlds.discardTask s.task)

/-- A whole evaluation goes the same way, step by step. -/
theorem Mutes.run (hm : s.Mutes s') (i : HeapId) (limit : Nat) :
    World.MutesOutcome (s.run i limit) (s'.run i limit) := by
  induction limit generalizing s s' with
  | zero => exact hm.abandon.outcome _
  | succ limit ih =>
      obtain ⟨w, task, frames⟩ := s
      obtain ⟨w', task', frames'⟩ := s'
      obtain ⟨hworlds, rfl, rfl⟩ := hm
      cases task' with
      | eval env e => exact ih (mutes_stepEval hworlds i env e frames')
      | apply procedure args => exact ih (mutes_stepApply hworlds i procedure args frames')
      | finish outcome =>
          cases frames' with
          | nil => exact hworlds.outcome outcome
          | cons frame frames => exact ih (mutes_stepFinish hworlds outcome frame frames)

end Evaluation

namespace World.Mutes

variable {w w' : World}

theorem eval (hm : w.Mutes w') (i : HeapId) (limit : Nat) (env : EnvId) (e : Expr) :
    MutesOutcome (w.eval i limit env e) (w'.eval i limit env e) := by
  have hstart : Evaluation.Mutes { world := w, task := .eval env e, frames := [] }
      { world := w', task := .eval env e, frames := [] } := ⟨hm, rfl, rfl⟩
  exact hstart.run i limit

theorem apply (hm : w.Mutes w') (i : HeapId) (limit : Nat) (procedure : Handle)
    (args : List Handle) :
    MutesOutcome (w.apply i limit procedure args) (w'.apply i limit procedure args) := by
  have hstart : Evaluation.Mutes { world := w, task := .apply procedure args, frames := [] }
      { world := w', task := .apply procedure args, frames := [] } := ⟨hm, rfl, rfl⟩
  exact hstart.run i limit

end World.Mutes

end HybridHeap
