import HybridHeap.Text.Quoted
import HybridHeap.World.Basic

/-!
The diagnostic texts of heaps and environments.
-/

namespace HybridHeap

def Config.print (c : Config) : String :=
  "HeapConfig \x7b initial_capacity: " ++ toString c.initialCapacity ++
    ", collect_on_allocate: " ++ toString c.collectOnAllocate ++
    ", collect_on_release: " ++ toString c.collectOnRelease ++ " \x7d"

def Heap.print (h : Heap) : String :=
  "Heap \x7b config: " ++ h.config.print ++ ", phase: " ++ h.phase.label ++ ", .. \x7d"

/-- The names of the local bindings, sorted, and whether there is a parent. -/
def Environment.print (env : Environment) : String :=
  "Environment \x7b names: [" ++ ", ".intercalate (env.bindings.keys.map Text.quoted) ++
    "], has_parent: " ++ toString env.parent.isSome ++ " \x7d"

def World.printEnv (w : World) (e : EnvId) : String :=
  match w.envs[e]? with
  | some env => env.print
  | none => ""

end HybridHeap
