import FormulaSynth.Builtin
import FormulaSynth.NameSet
/-!
# Vocabularies

The names a formula may use: the functions it may call and the variables it may
mention. The standard vocabulary has every builtin, the two time counters `t` and
`T`, and the four macros.
-/

namespace FormulaSynth

/-- The variable that counts samples. -/
def sampleCounter : String := "t"

/-- The variable that counts ticks of the tempo. -/
def tempoCounter : String := "T"

/-- The variables a user sets by hand. -/
def macroNames : List String := ["w", "x", "y", "z"]

/-- **The names a formula may use.** -/
structure Vocabulary where
  functions : List Builtin := Builtin.all
  variableNames : NameSet := NameSet.ofList (tempoCounter :: sampleCounter :: macroNames)

namespace Vocabulary

/-- The function of a name. -/
def function? (v : Vocabulary) (name : String) : Option Builtin :=
  v.functions.find? fun f => f.name == name

theorem mem_of_function? {v : Vocabulary} {name : String} {f : Builtin}
    (h : v.function? name = some f) : f ∈ v.functions ∧ f.name = name := by
  refine ⟨List.mem_of_find?_eq_some h, ?_⟩
  have := List.find?_some h
  simpa using this

end Vocabulary

end FormulaSynth
