import Howler.Classification.Construct

namespace Howler

open Python Engine

/-- An enforced definition that the constructor accepts and whose tokens can be read in both
formats where they are shown. -/
structure Valid (rt : Runtime) (d : Definition) : Prop where
  enforced : (Classification.init rt d).engine.enforce = true
  accepted : (Classification.init rt d).engine.invalidMode = false
  legible : ∀ long, Legible rt (Classification.init rt d).engine long

instance (rt : Runtime) (d : Definition) : Decidable (Valid rt d) :=
  decidable_of_iff ((Classification.init rt d).engine.enforce = true ∧
    (Classification.init rt d).engine.invalidMode = false ∧
    ∀ long, Legible rt (Classification.init rt d).engine long)
    ⟨fun h => ⟨h.1, h.2.1, h.2.2⟩, fun h => ⟨h.enforced, h.accepted, h.legible⟩⟩

/-- The constructed engine, without its caches. -/
abbrev engineOf (rt : Runtime) (d : Definition) : Engine := (Classification.init rt d).engine

theorem engineOf_coherent (rt : Runtime) (d : Definition) : (engineOf rt d).Coherent :=
  Classification.init_coherent rt d

end Howler
