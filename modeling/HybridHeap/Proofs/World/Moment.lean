import HybridHeap.Proofs.World.Commit

/-!
Moments of a run: a world, what is owned outside it, and the write that may be under
way. A step does one thing to a world and says what becomes of the holdings; the
chores that it gives rise to are holdings until they are done. Every operation is a
sequence of such steps, so what every step preserves holds at every moment, also
between the nested drops and collections of one operation.
-/

namespace HybridHeap

/-- A world, the holdings outside it, and the write under way. -/
structure Moment where
  world : World
  held : List Holding
  write : Option Writing

namespace Moment

/-- The things that happen to a world, one at a time. While a cell is being written
nothing happens but chores. -/
inductive Step : Moment → Moment → Prop
  | permute {w : World} {held held' : List Holding} {write : Option Writing}
      (hp : held.Perm held') : Step ⟨w, held, write⟩ ⟨w, held', write⟩
  | chore {w : World} {held : List Holding} {write : Option Writing} (c : Chore) :
      Step ⟨w, c.holding :: held, write⟩
        ⟨(w.doChore c).1, (w.doChore c).2.map Chore.holding ++ held, write⟩
  | root {w : World} {held : List Holding} {c : CellId} {h : Heap}
      (hi : w.heap? c.heap = some h) (hl : h.Live c) :
      Step ⟨w, held, none⟩
        ⟨w.setHeap c.heap (h.register c).1, .root (h.register c).2 :: held, none⟩
  | place {w : World} {held : List Holding} {i : HeapId} {h : Heap} {v : Value Handle}
      {c : CellId} (hi : w.heap? i = some h) (ho : World.ownsAll i v = true)
      (hc : c = { heap := i, number := w.nextCell }) :
      Step ⟨w, v.holdings ++ held, none⟩
        ⟨({ w with nextCell := w.nextCell + 1 }.commit i (h.place c v).2).1,
          (h.place c v).2.payloads.map Chore.holding ++ (.root (h.place c v).1 :: held), none⟩
  | swap {w : World} {held : List Holding} {r : Root} {h : Heap} {v : Value Handle}
      (hi : w.heap? r.cell.heap = some h) (ho : World.ownsAll r.cell.heap v = true) :
      Step ⟨w, .root r :: (v.holdings ++ held), none⟩
        ⟨w.setHeap r.cell.heap (h.swap r.cell v),
          (h.read r.cell).env?.toList.map .share ++ held,
          some { root := r, anchors := v.anchors }⟩
  | finishWrite {w : World} {held : List Holding} {wr : Writing} {h : Heap}
      (hi : w.heap? wr.root.cell.heap = some h) :
      Step ⟨w, held, some wr⟩
        ⟨(w.commit wr.root.cell.heap (h.finishWrite wr.anchors)).1,
          (h.finishWrite wr.anchors).payloads.map Chore.holding ++ (.root wr.root :: held), none⟩
  | write {w : World} {held : List Holding} {c : CellId} {h : Heap} {p : Position} {t : Slot}
      {rec : Reclamation} (hi : w.heap? c.heap = some h) (hl : h.Live c) (ht : ∀ d ∈ t, h.Live d)
      (hw : h.write c p t = .ok rec) :
      Step ⟨w, held, none⟩
        ⟨(w.commit c.heap rec).1, rec.payloads.map Chore.holding ++ held, none⟩
  | append {w : World} {held : List Holding} {c : CellId} {h : Heap} {t : Slot}
      {rec : Reclamation} (hi : w.heap? c.heap = some h) (hl : h.Live c) (ht : ∀ d ∈ t, h.Live d)
      (hw : h.append c t = .ok rec) :
      Step ⟨w, held, none⟩
        ⟨(w.commit c.heap rec).1, rec.payloads.map Chore.holding ++ held, none⟩
  | collectNow {w : World} {held : List Holding} {i : HeapId} {h : Heap}
      (hi : w.heap? i = some h) :
      Step ⟨w, held, none⟩
        ⟨(w.commit i h.collectNow).1, h.collectNow.payloads.map Chore.holding ++ held, none⟩
  | shareEnv {w : World} {held : List Holding} {e : EnvId} {env : Environment}
      (he : w.envs[e]? = some env) :
      Step ⟨w, held, none⟩ ⟨w.shareEnv e, .share e :: held, none⟩
  | newEnv {w : World} {held : List Holding} {parent : Option EnvId}
      (hp : ∀ p ∈ parent, ∃ env, w.envs[p]? = some env) :
      Step ⟨w, held, none⟩ ⟨(w.newEnv parent).1, .share w.nextEnv :: held, none⟩
  | rebind {w : World} {held : List Holding} {e : EnvId} {env : Environment} {name : String}
      {h : Handle} (he : w.envs[e]? = some env) :
      Step ⟨w, h.holdings ++ held, none⟩
        ⟨(w.rebind e name h).1, (w.rebind e name h).2.holdings ++ held, none⟩
  | forgetEvents {w : World} {held : List Holding} :
      Step ⟨w, held, none⟩ ⟨{ w with events := [] }, held, none⟩

/-- The moments of all runs, on heaps of any configurations. -/
inductive Reachable : Moment → Prop
  | start (configs : Array Config) (dropOrder : EnvId → DropOrder) :
      Reachable ⟨World.new configs dropOrder, [], none⟩
  | step {m m' : Moment} (hr : Reachable m) (hs : Step m m') : Reachable m'

/-- Everything is owned as often as it is recorded to be. -/
def Balanced (m : Moment) : Prop :=
  m.world.Balanced m.held m.write

/-- No step disturbs the balance. -/
theorem Step.balanced {m m' : Moment} (hs : Step m m') (hb : m.Balanced) : m'.Balanced := by
  cases hs with
  | permute hp => exact World.Balanced.perm hb hp
  | chore c => exact World.Balanced.doChore hb
  | root hi hl => exact World.Balanced.register hb hi hl
  | place hi ho hc => exact World.Balanced.place hb hi ho hc
  | swap hi ho => exact World.Balanced.swap hb hi ho
  | finishWrite hi => exact World.Balanced.finishWrite hb hi
  | write hi hl ht hw => exact World.Balanced.writeSlot hb hi hl ht hw
  | append hi hl ht hw => exact World.Balanced.append hb hi hl ht hw
  | collectNow hi => exact World.Balanced.collectNow hb hi
  | shareEnv he => exact World.Balanced.shareEnv hb he
  | newEnv hp => exact World.Balanced.newEnv hb hp
  | rebind he => exact World.Balanced.rebind hb he
  | forgetEvents => exact ⟨hb.heap, hb.home, hb.cells, hb.scopes, hb.owners⟩

theorem balanced_start (configs : Array Config) (dropOrder : EnvId → DropOrder) :
    Balanced ⟨World.new configs dropOrder, [], none⟩ := by
  have hheap : ∀ {i h}, (World.new configs dropOrder).heap? i = some h →
      ∃ config, h = Heap.new config := by
    intro i h hi
    simp only [World.heap?, World.new, Array.getElem?_map, Option.map_eq_some_iff] at hi
    obtain ⟨config, -, rfl⟩ := hi
    exact ⟨config, rfl⟩
  constructor
  · intro i h hi
    obtain ⟨config, rfl⟩ := hheap hi
    exact Heap.balanced_new config
  · intro r hr
    cases hr
  · intro i h hi c hc
    obtain ⟨config, rfl⟩ := hheap hi
    obtain ⟨cell, hf⟩ := hc
    cases hf
  · intro e env he
    simp [World.new] at he
  · intro e
    have hclosures : (World.new configs dropOrder).closures = [] := by
      rw [World.closures, List.flatMap_eq_nil_iff]
      intro h hh
      simp only [World.new, Array.toList_map, List.mem_map] at hh
      obtain ⟨config, -, rfl⟩ := hh
      rfl
    rw [hclosures]
    rfl

/-- Chores can be done at any moment, with everything that they give rise to. -/
theorem Reachable.settle {w : World} {chores : List Chore} {held : List Holding}
    {write : Option Writing} (hr : Reachable ⟨w, chores.map Chore.holding ++ held, write⟩) :
    Reachable ⟨w.settle chores, held, write⟩ := by
  fun_induction World.settle w chores with
  | case1 w => exact hr
  | case2 w c rest ih =>
      apply ih
      rw [List.map_append, List.append_assoc]
      exact hr.step (.chore c)

theorem Reachable.collectNow {w : World} {held : List Holding} (hr : Reachable ⟨w, held, none⟩)
    (i : HeapId) : Reachable ⟨w.collectNow i, held, none⟩ := by
  simp only [World.collectNow, World.work]
  cases hi : w.heap? i with
  | none => exact hr
  | some h => exact (hr.step (.collectNow hi)).settle

/-- The balance holds at every moment of every run. -/
theorem Reachable.balanced {m : Moment} (hr : m.Reachable) : m.Balanced := by
  induction hr with
  | start configs dropOrder => exact balanced_start configs dropOrder
  | step _ hs ih => exact hs.balanced ih

end Moment

end HybridHeap
