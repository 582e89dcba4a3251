import Mathlib.Data.Prod.Lex
import Mathlib.Data.Set.Finite.Lemmas
import Mathlib.Order.WithBot
import HybridHeap.Proofs.Mirror.Evaluate
import HybridHeap.Proofs.Mirror.Snapshot
import HybridHeap.Proofs.Unmanaged.Ranks

/-!
Work that leaves no trace. Whatever a piece of work has only added to a world is in order of
its creation, so that nothing of it stays alive once none of it is held: the newest of it
would have to be held by something newer still. And what was there before has not changed.
-/

namespace HybridHeap

open Unmanaged (Store)

namespace Node

/-- A cell or an environment that did not exist yet in `w`. -/
def Fresh (w : World) : Node → Prop
  | cell c => w.nextCell ≤ c.number
  | scope e => w.nextEnv ≤ e

/-- Cells by their numbers, and each scope below the first cell that can capture it. -/
def height (rank : EnvId → Nat) : Node → ℕ ×ₗ WithTop ℕ
  | cell c => toLex (c.number, ⊤)
  | scope e => toLex (rank e, WithTop.some e)

end Node

namespace World

variable {w w' : World} {held held₀ : List Holding} {st : Store} {n m : Node}

/-- A fresh node is referred to by fresh nodes only, and they are higher. -/
theorem Agrees.fresh_of_edge {rank : EnvId → Nat} (ha : w'.Agrees st)
    (hb : w'.Balanced held none) (hr : Store.Ranked w.snapshot rank st) (he : w'.Edge m n)
    (hn : n.Fresh w) : m.Fresh w ∧ n.height rank < m.height rank := by
  have hvalue : ∀ {c : CellId} {h : Heap} {cell : Cell}, w'.heap? c.heap = some h →
      h.find? c = some cell → st.cells[c]? = some cell.value := fun hi hf =>
    ha.cells _ _ hi _ (mem_contents_of_find? (hb.heap _ _ hi).counted.sound hf)
  have hlow : ∀ e, w.nextCell ≤ rank e := fun e => (hr.bounded e).1
  have hold : ∀ e, e < w.nextEnv → rank e = w.nextCell := hr.old
  cases he with
  | @slot c d h cell hi hf hd =>
      have hlt : d.number < c.number :=
        (hr.slot c _ (hvalue hi hf) d hd).resolve_left (Nat.not_lt.mpr hn)
      exact ⟨Nat.le_trans hn (Nat.le_of_lt hlt), Prod.Lex.toLex_lt_toLex.mpr (.inl hlt)⟩
  | @captured c e h cell hi hf he =>
      have hle : rank e ≤ c.number :=
        (hr.captured c _ (hvalue hi hf) e he).resolve_left (Nat.not_lt.mpr hn)
      refine ⟨Nat.le_trans (hlow e) hle, Prod.Lex.toLex_lt_toLex.mpr ?_⟩
      exact (Nat.lt_or_eq_of_le hle).imp id fun heq => ⟨heq, WithTop.coe_lt_top _⟩
  | @bound e env r he hroot =>
      obtain ⟨name, hname⟩ := Environment.mem_roots.mp hroot
      have hlt : r.cell.number < rank e :=
        hr.bound e _ (ha.scopes e env he) name r.cell (by rw [getElem?_bare, hname]; rfl)
      refine ⟨Nat.le_of_not_lt fun hlow => ?_, Prod.Lex.toLex_lt_toLex.mpr (.inl hlt)⟩
      rw [hold e hlow] at hlt
      exact absurd hlt (Nat.not_lt.mpr hn)
  | @parent e p env he hp =>
      obtain ⟨hle, hlt⟩ := hr.parent e _ (ha.scopes e env he) p hp
      refine ⟨Nat.le_trans hn (Nat.le_of_lt hlt), Prod.Lex.toLex_lt_toLex.mpr ?_⟩
      exact (Nat.lt_or_eq_of_le hle).imp id fun heq => ⟨heq, WithTop.coe_lt_coe.mpr hlt⟩

/-- Nothing fresh stays alive unless it is held. -/
theorem Agrees.not_fresh (ha : w'.Agrees st) (hb : w'.Balanced held none)
    (hg : w.snapshot.Grows st) (hc : w.snapshot.Closed)
    (hheld : ∀ n ∈ held.map Holding.node, ¬n.Fresh w) (hn : w'.Alive n) : ¬n.Fresh w := by
  intro hfresh
  obtain ⟨rank, hr⟩ := hg.ranked hc
  -- the highest of them would need a holder that is higher still
  have hfinite : {n | w'.Alive n ∧ n.Fresh w}.Finite := hb.finite_alive.subset fun _ h => h.1
  obtain ⟨top, ⟨halive, htop⟩, hmax⟩ :=
    Set.exists_max_image _ (Node.height rank) hfinite ⟨n, hn, hfresh⟩
  rcases hb.held_or_edge halive with hm | ⟨m, hm, hedge⟩
  · exact hheld top hm htop
  · obtain ⟨hfresh', hlt⟩ := ha.fresh_of_edge hb hr hedge htop
    exact absurd (hmax m ⟨hm, hfresh'⟩) (not_le.mpr hlt)

/-- What is alive is not fresh. -/
theorem Balanced.not_fresh_of_alive (hb : w.Balanced held none) (hn : w.Alive n) :
    ¬n.Fresh w := by
  cases n with
  | cell c =>
      obtain ⟨h, hi, hl⟩ := hn
      exact Nat.not_le.mpr (hb.cells _ h hi c hl).2
  | scope e =>
      obtain ⟨env, he⟩ := hn
      exact Nat.not_le.mpr (hb.scopes e env he).1

/-- What is held is not fresh. -/
theorem Balanced.not_fresh (hb : w.Balanced held none) :
    ∀ n ∈ held.map Holding.node, ¬n.Fresh w :=
  fun _ hn => hb.not_fresh_of_alive (hb.alive_of_held hn)

/-- `w'` is left of `w` by work that has left no trace: no cell that was allocated by it is
alive, whatever can be reached from what is owned is still there, cells have the values that
they had, and environments the parents and the bindings. -/
structure Traceless (owned : Node → Prop) (w w' : World) : Prop where
  fresh : ∀ c : CellId, w.nextCell ≤ c.number → ¬w'.Live c
  kept : ∀ n, owned n → ∀ m, w.Leads n m → w'.Alive m
  cells : ∀ c, w'.Live c → w.Live c ∧ w'.readCell c = w.readCell c
  scopes : ∀ (e : EnvId) (env' : Environment), w'.envs[e]? = some env' →
    ∃ env, w.envs[e]? = some env ∧ env'.bare = env.bare

theorem Traceless.mono {owned owned' : Node → Prop} (ht : w.Traceless owned w')
    (hsub : ∀ n, owned' n → owned n) : w.Traceless owned' w' :=
  { ht with kept := fun n hn => ht.kept n (hsub n hn) }

/-- What is alive in both worlds, unchanged, leads to the same, so that what can be reached
from what is held is alive in the second. -/
theorem alive_of_leads (hm : Mirrored ⟨w', held, none⟩ st)
    (hcells : ∀ c, w'.Live c → w'.readCell c = w.readCell c)
    (hscopes : ∀ (e : EnvId) (env' : Environment), w'.envs[e]? = some env' →
      ∃ env, w.envs[e]? = some env ∧ env'.bare = env.bare)
    (hn : n ∈ held.map Holding.node) (hpath : w.Leads n m) : w'.Alive m := by
  have hb' := hm.balanced
  have hread : ∀ {c h cell}, w'.Live c → w.heap? c.heap = some h → h.find? c = some cell →
      w'.readCell c = cell.value := by
    intro c h cell hl hi hf
    rw [hcells c hl, readCell, hi]
    simp [Heap.read, hf]
  have hscope : ∀ {e env}, w'.Alive (.scope e) → w.envs[e]? = some env →
      ∃ env', w'.envs[e]? = some env' ∧ env'.bare = env.bare := by
    rintro e env ⟨env', he'⟩ he
    obtain ⟨env₀, he₀, hbare⟩ := hscopes e env' he'
    rw [he, Option.some.injEq] at he₀
    exact ⟨env', he', he₀ ▸ hbare⟩
  induction hpath with
  | refl => exact hb'.alive_of_held hn
  | tail _ hedge ih =>
      cases hedge with
      | @slot c d h cell hi hf hd =>
          exact hm.live_of_child ih (hread ih hi hf ▸ hd)
      | @captured c e h cell hi hf he =>
          refine hm.env_of_read (s := some c) (fun d hd => by cases hd; exact ih) e ?_
          rw [readSlot, hread ih hi hf]
          exact he
      | @bound e env r he hr =>
          obtain ⟨env', he', hbare⟩ := hscope ih he
          obtain ⟨name, hname⟩ := Environment.mem_roots.mp hr
          have hsame : (env'.bindings[name]?).map Handle.target = some (some r.cell) := by
            rw [← getElem?_bare, hbare, getElem?_bare, hname]
            rfl
          obtain ⟨x, hx, htarget⟩ := Option.map_eq_some_iff.mp hsame
          exact hm.live_of_bound he' hx r.cell htarget
      | @parent e p env he hp =>
          obtain ⟨env', he', hbare⟩ := hscope ih he
          have hparent : env'.parent = env.parent := congrArg Unmanaged.Scope.parent hbare
          exact hb'.env_of_parent he' (hparent.trans hp)

/-- Of work that has only added to a world nothing is alive if nothing of it is held. -/
theorem Balanced.not_fresh_of_grows (hb : w.Balanced held₀ none) (hsub : held ⊆ held₀)
    (hm : Mirrored ⟨w', held, none⟩ st) (hg : w.snapshot.Grows st) (hn : w'.Alive n) :
    ¬n.Fresh w :=
  hm.agrees.not_fresh hm.balanced hg hb.closed_snapshot
    (fun n hn => hb.not_fresh n (List.map_subset _ hsub hn)) hn

/-- Work that has only added to a world and keeps nothing of it leaves no trace. -/
theorem Balanced.traceless (hb : w.Balanced held₀ none) (hsub : held ⊆ held₀)
    (hm : Mirrored ⟨w', held, none⟩ st) (hg : w.snapshot.Grows st) :
    w.Traceless (· ∈ held.map Holding.node) w' := by
  have hb' := hm.balanced
  have hold : ∀ {n}, w'.Alive n → ¬n.Fresh w := hb.not_fresh_of_grows hsub hm hg
  have hcells : ∀ c, w'.Live c → w.Live c ∧ w'.readCell c = w.readCell c := by
    intro c hl
    have hlt : c.number < w.nextCell := Nat.lt_of_not_le (hold (n := .cell c) hl)
    obtain ⟨h', hi', cell', hf'⟩ := hl
    have hvalue := hm.agrees.cells _ _ hi' _
      (mem_contents_of_find? (hb'.heap _ _ hi').counted.sound hf')
    rw [hg.getElem?_cells hlt] at hvalue
    obtain ⟨h, cell, hi, hf, hsame⟩ := hb.live_of_snapshot hvalue
    refine ⟨⟨h, hi, cell, hf⟩, ?_⟩
    simp only [readCell, hi, hi', Heap.read, hf, hf', hsame]
  have hscopes : ∀ (e : EnvId) (env' : Environment), w'.envs[e]? = some env' →
      ∃ env, w.envs[e]? = some env ∧ env'.bare = env.bare := by
    intro e env' he
    have hlt : e < w.nextEnv := Nat.lt_of_not_le (hold (n := .scope e) ⟨env', he⟩)
    have hscope := hm.agrees.scopes e env' he
    rw [hg.getElem?_scopes hlt, snapshot, Std.ExtTreeMap.getElem?_map,
      Option.map_eq_some_iff] at hscope
    obtain ⟨env, henv, hbare⟩ := hscope
    exact ⟨env, henv, hbare.symm⟩
  exact
    { fresh := fun c hle hl => hold (n := .cell c) hl hle
      kept := fun n hn m hpath =>
        World.alive_of_leads hm (fun c hl => (hcells c hl).2) hscopes hn hpath
      cells := hcells
      scopes := hscopes }

/-- What is left of an outcome when its handle, if there is one, is dropped. -/
def dropOutcome : World × Except Failure Handle → World
  | (w, .ok h) => w.drop h
  | (w, .error _) => w

theorem Balanced.traceless_of_obtained (hb : w.Balanced held₀ none) (hsub : held ⊆ held₀)
    {out : World × Except Failure Handle} {out' : Store × Except Failure Slot}
    (ho : ObtainedHandle held out out') (hg : w.snapshot.Grows out'.1) :
    w.Traceless (· ∈ held.map Holding.node) (dropOutcome out) := by
  cases ho with
  | ok hm => exact hb.traceless hsub hm.drop hg
  | error hm => exact hb.traceless hsub hm hg

end World

namespace Moment.Reachable

open World (dropOutcome)

variable {w : World} {held : List Holding}

/-- What an owned handle refers to is in the snapshot. -/
theorem knows_of_owned {write : Option Writing} (hm : Moment.Reachable ⟨w, held, write⟩)
    {h : Handle} (ho : Owned held h) : w.snapshot.Knows h.target := by
  intro c hc
  obtain ⟨heap, hi, hl⟩ := hm.mirrored.live_of_owned ho c hc
  exact (World.Balanced.cells hm.balanced _ heap hi c hl).2

theorem knows_of_items {items : List Handle}
    (hm : Moment.Reachable ⟨w, items.flatMap Handle.holdings ++ held, none⟩) :
    ∀ s ∈ items.map Handle.target, w.snapshot.Knows s := by
  intro s hs
  obtain ⟨h, hh, rfl⟩ := List.mem_map.mp hs
  exact hm.knows_of_owned (owned_of_mem hh held)

/-- Evaluation leaves no trace once its outcome is dropped. -/
theorem traceless_eval (hm : Moment.Reachable ⟨w, held, none⟩) {env : EnvId}
    (he : .share env ∈ held) (i : HeapId) (limit : Nat) (e : Expr) :
    w.Traceless (· ∈ held.map Holding.node) (dropOutcome (w.eval i limit env e)) := by
  have hb : w.Balanced held none := hm.balanced
  have hlt : env < w.snapshot.nextEnv := by
    obtain ⟨scope, hscope⟩ := hb.env_of_share he
    exact (hb.scopes env scope hscope).1
  exact hb.traceless_of_obtained (List.Subset.refl held) (hm.mirrored.eval he i limit e)
    (Store.extends_eval hb.closed_snapshot hlt i limit e).grows

/-- So does the application of a procedure to arguments that are handed over. -/
theorem traceless_apply {procedure : Handle} {args : List Handle}
    (hm : Moment.Reachable ⟨w, args.flatMap Handle.holdings ++ held, none⟩)
    (hp : Owned held procedure) (i : HeapId) (limit : Nat) :
    w.Traceless (· ∈ held.map Holding.node) (dropOutcome (w.apply i limit procedure args)) := by
  have hb : w.Balanced (args.flatMap Handle.holdings ++ held) none := hm.balanced
  exact hb.traceless_of_obtained (List.subset_append_right _ _)
    (hm.mirrored.apply hp i limit)
    (Store.extends_apply hb.closed_snapshot
      (hm.knows_of_owned (hp.mono fun _ => List.mem_append_right _)) hm.knows_of_items i
        limit).grows

end Moment.Reachable

end HybridHeap
