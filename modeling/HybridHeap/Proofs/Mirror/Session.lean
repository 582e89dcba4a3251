import HybridHeap.Proofs.Mirror.Evaluate
import HybridHeap.Proofs.Mirror.Writers
import HybridHeap.Proofs.Unmanaged.Session

/-!
The registers of a script, on a world and on a store. A session owns what its registers
hold. What an operation has in its hands on top of that stands in front of the
holdings of the session.
-/

namespace HybridHeap

open Unmanaged (Store)

section Registers

variable {β : Type} (t : Std.ExtTreeMap String β) (f : β → List Holding) (name : String)

/-- What a register holds, and what the others hold. -/
theorem flatMap_values_perm {d : β} (hd : f d = []) :
    (t.values.flatMap f).Perm (f ((t[name]?).getD d) ++ (t.erase name).values.flatMap f) := by
  cases hn : t[name]? with
  | none =>
      rw [erase_eq_self hn, Option.getD_none, hd]
      exact .refl _
  | some b => exact (values_perm_of_getElem? hn).flatMap_right f

theorem flatMap_values_insert_perm (b : β) :
    ((t.insert name b).values.flatMap f).Perm (f b ++ (t.erase name).values.flatMap f) :=
  (values_insert_perm t name b).flatMap_right f

end Registers

namespace Session

/-- What the registers own. -/
def holdings (s : Session) : List Holding :=
  s.registers.values.flatMap Handle.holdings ++
    (s.held.values.flatMap Value.holdings ++ s.scopes.values.flatMap fun e => [.share e])

/-- The session as it goes on with a store. -/
def bare (s : Session) (st : Store) : Unmanaged.Session :=
  { store := st
    heaps := s.heaps
    registers := s.registers.map fun _ h => h.target
    held := s.held.map fun _ v => v.placed
    scopes := s.scopes }

/-- A session whose world a store mirrors, with more in its hands than its registers
own. -/
def Mirrors (s : Session) (extra : List Holding) (st : Store) : Prop :=
  Mirrored ⟨s.world, extra ++ s.holdings, none⟩ st

/-- Outcomes that are the same with a world and with a store. -/
inductive Yields {α β : Type} (own : α → List Holding) (bare : α → β) (extra : List Holding) :
    Session × Except Failure α → Unmanaged.Session × Except Failure β → Prop
  | ok {s : Session} {a : α} {st : Store} (hm : s.Mirrors (own a ++ extra) st) :
      Yields own bare extra (s, .ok a) (s.bare st, .ok (bare a))
  | error {s : Session} {f : Failure} {st : Store} (hm : s.Mirrors extra st) :
      Yields own bare extra (s, .error f) (s.bare st, .error f)

abbrev YieldsHandle := Yields Handle.holdings Handle.target

variable {s : Session} {extra extra' : List Holding} {st : Store} {α β : Type}

theorem Mirrors.permute (hm : s.Mirrors extra st) (hp : extra.Perm extra') :
    s.Mirrors extra' st :=
  Mirrored.permute hm (hp.append_right _)

/-- What is in hand, before what the registers own. -/
theorem Mirrors.mirrored {l : List Holding} (hm : s.Mirrors (l ++ extra) st) :
    Mirrored ⟨s.world, l ++ (extra ++ s.holdings), none⟩ st := by
  unfold Mirrors at hm
  rwa [List.append_assoc] at hm

/-- An operation of the world, from a session. -/
theorem yields_lift {own : α → List Holding} {bare : α → β} {out : World × Except Failure α}
    {out' : Store × Except Failure β} (ho : Obtained own bare (extra ++ s.holdings) out out') :
    Yields own bare extra (s.lift out) ((s.bare st).lift out') := by
  cases ho with
  | @ok w a st' hm =>
      rw [← List.append_assoc] at hm
      exact .ok (s := { s with world := w }) hm
  | @error w f st' hm => exact .error (s := { s with world := w }) hm

theorem bare_store (s : Session) (st : Store) : (s.bare st).store = st := rfl

theorem bare_slot (s : Session) (st : Store) (name : String) :
    (s.bare st).slot name = (s.handle name).target := by
  simp only [Unmanaged.Session.slot, bare, handle, Std.ExtTreeMap.getElem?_map]
  cases s.registers[name]? <;> rfl

theorem bare_kept (s : Session) (st : Store) (name : String) :
    (s.bare st).held[name]? = (s.held[name]?).map Value.placed := by
  rw [bare, Std.ExtTreeMap.getElem?_map]

/-- A register owns its handle. -/
theorem owned_handle (s : Session) (extra : List Holding) (name : String) :
    Owned (extra ++ s.holdings) (s.handle name) := by
  have hp := flatMap_values_perm s.registers Handle.holdings name (d := none) rfl
  have ho := owned_holdings (s.handle name) ((s.registers.erase name).values.flatMap
    Handle.holdings)
  apply ho.mono
  intro x hx
  exact List.mem_append_right _ (List.mem_append_left _ (hp.mem_iff.mpr hx))

theorem Mirrors.read (hm : s.Mirrors extra st) (name : String) :
    s.world.read (s.handle name) = st.read (s.handle name).target :=
  Mirrored.read hm (s.owned_handle extra name)

/-- Taking a handle out of its register. -/
theorem Mirrors.take (hm : s.Mirrors extra st) (name : String) :
    (s.bare st).take name = ((s.take name).1.bare st, (s.take name).2.target) ∧
      (s.take name).1.Mirrors ((s.take name).2.holdings ++ extra) st := by
  constructor
  · simp only [Unmanaged.Session.take, Session.take, bare_slot, Prod.mk.injEq, and_true]
    simp only [bare, map_erase]
  · apply Mirrored.permute hm
    have hp := flatMap_values_perm s.registers Handle.holdings name (d := none) rfl
    refine ((hp.append_right _).append_left extra).trans ?_
    rw [List.append_assoc, List.append_assoc]
    exact List.perm_append_comm_assoc ..

/-- Storing a handle, or dropping it. -/
theorem Mirrors.store {h : Handle} (hm : s.Mirrors (h.holdings ++ extra) st)
    (dest : Option String) :
    (s.bare st).assign dest h.target = (s.store dest h).bare st ∧
      (s.store dest h).Mirrors extra st := by
  cases dest with
  | none => exact ⟨rfl, hm.mirrored.drop⟩
  | some name =>
      refine ⟨?_, ?_⟩
      · simp only [Unmanaged.Session.assign, Session.store, bare, onWorld, map_insert]
      · have hp := flatMap_values_perm s.registers Handle.holdings name (d := none) rfl
        have hi := flatMap_values_insert_perm s.registers Handle.holdings name h
        refine Mirrored.drop (h := s.handle name) (Mirrored.permute hm ?_)
        simp only [holdings, Session.store, onWorld]
        rw [List.perm_iff_count]
        intro x
        have h₁ := hp.count_eq x
        have h₂ := hi.count_eq x
        simp only [handle, List.count_append] at h₁ h₂ ⊢
        omega

/-- Storing a share of a scope, or giving it up. -/
theorem Mirrors.storeScope {e : EnvId} (hm : s.Mirrors (.share e :: extra) st)
    (dest : Option String) :
    (s.bare st).assignScope dest e = (s.storeScope dest e).bare st ∧
      (s.storeScope dest e).Mirrors extra st := by
  cases dest with
  | none => exact ⟨rfl, Mirrored.leaveEnv hm⟩
  | some name =>
      have hi := flatMap_values_insert_perm s.scopes (fun e => [.share e]) name e
      cases hn : s.scopes[name]? with
      | none =>
          simp only [Session.storeScope, hn]
          refine ⟨rfl, Mirrored.permute hm ?_⟩
          rw [erase_eq_self hn] at hi
          rw [List.perm_iff_count]
          intro x
          have h₁ := hi.count_eq x
          simp only [holdings, List.cons_append, List.count_append, List.count_cons,
            List.count_nil] at h₁ ⊢
          omega
      | some p =>
          simp only [Session.storeScope, hn]
          have hp := (values_perm_of_getElem? hn).flatMap_right fun e => [Holding.share e]
          refine ⟨rfl, Mirrored.leaveEnv (Mirrored.permute hm ?_)⟩
          rw [List.perm_iff_count]
          intro x
          have h₁ := hi.count_eq x
          have h₂ := hp.count_eq x
          simp only [holdings, onWorld, List.flatMap_cons, List.cons_append, List.nil_append,
            List.count_append, List.count_cons] at h₁ h₂ ⊢
          omega

/-- Taking a value that was kept off the heap. -/
theorem Mirrors.takeKept (hm : s.Mirrors extra st) (name : String) :
    { s with held := s.held.erase name }.Mirrors
      (((s.held[name]?).getD .null).holdings ++ extra) st := by
  have hp := flatMap_values_perm s.held Value.holdings name (d := .null) rfl
  apply Mirrored.permute hm
  rw [List.perm_iff_count]
  intro x
  have h₁ := hp.count_eq x
  simp only [holdings, List.count_append] at h₁ ⊢
  omega

/-- Keeping a value; the one kept before comes out. -/
theorem Mirrors.putKept {v : Value Handle} (hm : s.Mirrors (v.holdings ++ extra) st)
    (name : String) :
    { s with held := s.held.insert name v }.Mirrors
      (((s.held[name]?).getD .null).holdings ++ extra) st := by
  have hp := flatMap_values_perm s.held Value.holdings name (d := .null) rfl
  have hi := flatMap_values_insert_perm s.held Value.holdings name v
  apply Mirrored.permute hm
  rw [List.perm_iff_count]
  intro x
  have h₁ := hp.count_eq x
  have h₂ := hi.count_eq x
  simp only [holdings, List.count_append] at h₁ h₂ ⊢
  omega

theorem Mirrors.keep {v : Value Handle} (hm : s.Mirrors (v.holdings ++ extra) st)
    (name : String) : (s.keep name v).Mirrors extra st := by
  have hput := hm.putKept name
  cases hn : s.held[name]? with
  | none =>
      rw [hn] at hput
      simp only [Session.keep, hn]
      exact hput
  | some old =>
      rw [hn] at hput
      simp only [Session.keep, hn]
      exact hput.mirrored.discard

theorem bare_keep (s : Session) (st : Store) (name : String) (v : Value Handle) :
    (s.keep name v).bare st =
      { s.bare st with held := (s.bare st).held.insert name v.placed } := by
  cases hn : s.held[name]? <;> simp only [Session.keep, hn, bare, onWorld, map_insert]

/-- A child of a value is exchanged for another. -/
theorem holdings_setChild_perm {v : Value Handle} {index : Nat} {old : Handle}
    (hc : v.children[index]? = some old) (h : Handle) :
    (old.holdings ++ (v.setChild index h).holdings).Perm (h.holdings ++ v.holdings) := by
  obtain ⟨hlt, hold⟩ := List.getElem?_eq_some_iff.mp hc
  -- the children before and after the one exchanged stay
  have hsplit : v.children = v.children.take index ++ old :: v.children.drop (index + 1) := by
    rw [← hold, ← List.drop_eq_getElem_cons, List.take_append_drop]
  rw [Value.holdings, Value.holdings, Value.anchors, Value.anchors, Value.children_setChild hc,
    Value.env?_setChild, List.set_eq_take_append_cons_drop, if_pos hlt]
  generalize v.children.take index = l₁ at hsplit ⊢
  generalize v.children.drop (index + 1) = l₂ at hsplit ⊢
  rw [hsplit, List.perm_iff_count]
  intro x
  simp only [List.filterMap_append, filterMap_id_cons, List.map_append, Handle.holdings,
    List.count_append]
  omega

theorem Mirrors.putChild {h : Handle} (hm : s.Mirrors (h.holdings ++ extra) st) (name : String)
    (index : Nat) :
    (s.bare st).putChild name index h.target =
        ((s.putChild name index h).1.bare st, (s.putChild name index h).2) ∧
      (s.putChild name index h).1.Mirrors extra st := by
  have hv : ((s.bare st).held[name]?).getD .null = ((s.held[name]?).getD .null).placed := by
    rw [bare_kept]
    cases s.held[name]? <;> rfl
  have hp := flatMap_values_perm s.held Value.holdings name (d := .null) rfl
  generalize hval : (s.held[name]?).getD .null = v at hv hp
  have hchild : v.placed.children[index]? = (v.children[index]?).map Handle.target := by
    rw [Value.placed, Value.children_map, List.getElem?_map]
  simp only [Unmanaged.Session.putChild, Session.putChild, hv, hval, hchild]
  cases hc : v.children[index]? with
  | none =>
      have hi := flatMap_values_insert_perm s.held Value.holdings name v
      refine ⟨?_, Mirrored.drop (h := h) (Mirrored.permute hm ?_)⟩
      · simp only [Option.map_none, bare, onWorld, map_insert]
      · rw [List.perm_iff_count]
        intro x
        have h₁ := hp.count_eq x
        have h₂ := hi.count_eq x
        simp only [holdings, onWorld, List.count_append] at h₁ h₂ ⊢
        omega
  | some old =>
      have hi := flatMap_values_insert_perm s.held Value.holdings name (v.setChild index h)
      have hswap := holdings_setChild_perm hc h
      refine ⟨?_, Mirrored.settle (Mirrored.permute hm ?_)⟩
      · simp only [Option.map_some, bare, onWorld, map_insert, Value.placed, Value.map_setChild]
      · rw [List.map_map]
        show List.Perm _ (old.holdings ++ _)
        rw [List.perm_iff_count]
        intro x
        have h₁ := hp.count_eq x
        have h₂ := hi.count_eq x
        have h₃ := hswap.count_eq x
        simp only [holdings, onWorld, List.count_append] at h₁ h₂ h₃ ⊢
        omega

end Session

end HybridHeap
