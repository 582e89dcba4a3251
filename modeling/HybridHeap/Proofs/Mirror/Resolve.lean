import HybridHeap.Proofs.Mirror.Session

/-!
The handles and values that operations are given, and the scopes in registers. Whatever
has been obtained when something fails is dropped, so a failure leaves in hand only
what was there before.
-/

namespace HybridHeap

open Unmanaged (Store)

namespace Session

variable {s : Session} {extra : List Holding} {st : Store} {α β : Type} {i : HeapId}

/-- A register owns a share of its scope. -/
theorem share_mem_holdings {name : String} {e : EnvId} (hn : s.scopes[name]? = some e) :
    .share e ∈ s.holdings :=
  List.mem_append_right _ (List.mem_append_right _
    (List.mem_flatMap.mpr ⟨e, mem_values_iff.mpr ⟨name, hn⟩, List.mem_cons_self⟩))

/-- The scope in a register exists, whatever else is in hand. -/
theorem Mirrors.env_of_scope (hm : s.Mirrors extra st) {name : String} {e : EnvId}
    (hn : s.scopes[name]? = some e) : ∃ env, s.world.envs[e]? = some env :=
  hm.balanced.env_of_share (List.mem_append_right _ (share_mem_holdings hn))

mutual

theorem Mirrors.resolve {s : Session} {extra : List Holding} {st : Store}
    (hm : s.Mirrors extra st) (i : HeapId) (operand : Operand) :
    YieldsHandle extra (s.resolve i operand) ((s.bare st).resolve i operand) := by
  cases operand with
  | null => exact .ok (a := none) hm
  | copy name =>
      obtain ⟨hsame, hm'⟩ := Mirrored.clone hm (s.owned_handle extra name)
      rw [Session.resolve, Unmanaged.Session.resolve, bare_slot, ← hsame]
      rw [← List.append_assoc] at hm'
      exact .ok (s := { s with world := (s.world.clone (s.handle name)).1 }) hm'
  | move name =>
      obtain ⟨htake, hm'⟩ := hm.take name
      rw [Session.resolve, Unmanaged.Session.resolve, htake]
      exact .ok hm'
  | fresh d =>
      have hd := hm.build i d
      rw [Session.resolve, Unmanaged.Session.resolve]
      generalize s.build i d = out at hd ⊢
      generalize (s.bare st).build i d = out' at hd ⊢
      cases hd with
      | error hm' => exact .error hm'
      | ok hm' => exact yields_lift (hm'.mirrored.allocate i)
  | list items =>
      have hi := Mirrors.resolveAll [] hm i items
      rw [Session.resolve, Unmanaged.Session.resolve]
      rw [List.map_nil] at hi
      generalize s.resolveAll i [] items = out at hi ⊢
      generalize (s.bare st).resolveAll i [] items = out' at hi ⊢
      cases hi with
      | error hm' => exact .error hm'
      | ok hm' => exact yields_lift (hm'.mirrored.list i)

theorem Mirrors.resolveAll {s : Session} {extra : List Holding} {st : Store} (done : List Handle)
    (hm : s.Mirrors (done.flatMap Handle.holdings ++ extra) st) (i : HeapId)
    (operands : List Operand) :
    Yields (fun hs : List Handle => hs.flatMap Handle.holdings) (List.map Handle.target) extra
      (s.resolveAll i done operands)
      ((s.bare st).resolveAll i (done.map Handle.target) operands) := by
  cases operands with
  | nil =>
      rw [Session.resolveAll, Unmanaged.Session.resolveAll, ← List.map_reverse]
      exact .ok (hm.permute ((holdings_reverse_perm done).symm.append_right _))
  | cons operand operands =>
      have ho := hm.resolve i operand
      rw [Session.resolveAll, Unmanaged.Session.resolveAll]
      generalize s.resolve i operand = out at ho ⊢
      generalize (s.bare st).resolve i operand = out' at ho ⊢
      cases ho with
      | ok hm' =>
          refine Mirrors.resolveAll (_ :: done) (hm'.permute ?_) i operands
          rw [List.flatMap_cons, List.append_assoc]
      | @error s' f st' hm' =>
          refine .error (s := s'.onWorld (·.dropAll done.reverse)) (Mirrored.dropAll ?_)
          exact hm'.mirrored.permute ((holdings_reverse_perm done).symm.append_right _)

theorem Mirrors.build {s : Session} {extra : List Holding} {st : Store}
    (hm : s.Mirrors extra st) (i : HeapId) (draft : Draft) :
    Yields Value.holdings Value.placed extra (s.build i draft) ((s.bare st).build i draft) := by
  cases draft with
  | scalar v => exact .ok (a := Value.scalar v) hm
  | pair first second =>
      have hfirst := hm.resolve i first
      rw [Session.build, Unmanaged.Session.build]
      generalize s.resolve i first = out at hfirst ⊢
      generalize (s.bare st).resolve i first = out' at hfirst ⊢
      cases hfirst with
      | error hm' => exact .error hm'
      | @ok s' a st' hm' =>
          have hsecond := hm'.resolve i second
          dsimp only
          generalize s'.resolve i second = out at hsecond ⊢
          generalize (s'.bare st').resolve i second = out' at hsecond ⊢
          cases hsecond with
          | @error s'' f st'' hm'' =>
              exact .error (s := s''.onWorld (·.drop a)) hm''.mirrored.drop
          | @ok s'' b st'' hm'' =>
              refine .ok (a := Value.pair a b) (hm''.permute ?_)
              rw [holdings_pair, ← List.append_assoc]
              exact List.perm_append_comm.append_right _
  | vector items =>
      have hi := Mirrors.resolveAll [] hm i items
      rw [Session.build, Unmanaged.Session.build]
      rw [List.map_nil] at hi
      generalize s.resolveAll i [] items = out at hi ⊢
      generalize (s.bare st).resolveAll i [] items = out' at hi ⊢
      cases hi with
      | error hm' => exact .error hm'
      | @ok s' hs st' hm' =>
          rw [← holdings_vector] at hm'
          dsimp only
          rw [← placed_vector]
          exact .ok hm'
  | closure code scope =>
      have hb : (s.bare st).scopes[scope]? = s.scopes[scope]? := rfl
      rw [Session.build, Unmanaged.Session.build, hb]
      cases hn : s.scopes[scope]? with
      | none => exact .error hm
      | some e =>
          exact .ok (s := s.onWorld (·.shareEnv e)) (a := Value.closure code e)
            (Mirrored.shareEnv hm (hm.env_of_scope hn))
  | held name =>
      have hv : ((s.bare st).held[name]?).getD .null = ((s.held[name]?).getD .null).placed := by
        rw [bare_kept]
        cases s.held[name]? <;> rfl
      have hb : { s.bare st with held := (s.bare st).held.erase name } =
          { s with held := s.held.erase name }.bare st := by
        simp only [bare, map_erase]
      rw [Session.build, Unmanaged.Session.build, hv, hb]
      exact .ok (hm.takeKept name)

end

end Session

end HybridHeap
