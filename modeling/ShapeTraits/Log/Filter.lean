-- Which messages count: a level for each module that has one, and a level for
-- all the others.
import ShapeTraits.Log.Level

namespace ShapeTraits.Log

/-- The level of the modules without one of their own, and those that have
one, each once. -/
structure Filter where
  fallback : Level
  modules : List (Bytes × Level)
  deriving DecidableEq, Repr

namespace Filter

/-- Every module at one level. -/
def atLevel (level : Level) : Filter := ⟨level, []⟩

/-- The lowest level at which a module's messages count. -/
def threshold (f : Filter) (name : Bytes) : Level := (f.modules.lookup name).getD f.fallback

/-- Whether a message of a level counts. -/
def allows (f : Filter) (level : Level) (name : Bytes) : Bool := f.threshold name ≤ level

/-- The lowest level at which messages of any module count. -/
def lowest (f : Filter) : Level :=
  f.modules.foldr (fun entry low => entry.2.lower low) f.fallback

/-- The filter with another level for the modules that have none. -/
def withFallback (f : Filter) (level : Level) : Filter := { f with fallback := level }

/-- The filter with a level for one module, in place of any it had. -/
def withModule (f : Filter) (name : Bytes) (level : Level) : Filter :=
  { f with modules := (name, level) :: f.modules.filter (·.1 != name) }

/-! ## Specifications -/

/-- Without the spaces at either end. -/
def trimmed (text : Bytes) : Bytes := Bytes.trim (· == Byte.space) text

/-- One entry of a specification: a module that is followed closely, or a
module and its level. The name `*` stands for all other modules, and an entry
without a name for none. -/
def withEntry (f : Filter) (entry : Bytes) : Filter :=
  if trimmed entry = [] then f
  else
    match Bytes.cut Byte.equals (trimmed entry) with
    | (name, none) => f.withModule name .trace
    | (name, some level) =>
      let level := Level.ofName (trimmed level)
      if trimmed name = utf8 "*" then f.withFallback level
      else if trimmed name = [] then f
      else f.withModule (trimmed name) level

/-- The filter that a specification describes: entries between commas, of which
the later ones win. What was said of single modules before is forgotten. -/
def specify (f : Filter) (spec : Bytes) : Filter :=
  (Bytes.splitOn Byte.comma spec).foldl withEntry { f with modules := [] }

end Filter

end ShapeTraits.Log
