import Weft.Doc.Read
import Weft.Injector.Config

/-!
# Configurations in scripts

A configuration is a record of a preset and of the choices that differ from it.
-/

namespace Weft.Script

/-- The preset of that name, the default choices for any other. -/
def presetOf : String → Config
  | "minimal" => .minimal
  | "production" => .production
  | "strict" => .strict
  | _ => {}

instance : Read Config where
  read d := do
    let base := presetOf (← d.fieldD "preset" "default")
    return {
      skipSynthetic := ← d.fieldD "skip_synthetic_members" base.skipSynthetic
      nestAttributes := ← d.fieldD "emit_nest_attributes" base.nestAttributes
      stamp := ← d.fieldD "stamp_output" base.stamp
      verify := ← d.fieldD "verify_output" base.verify
      annotationDepth := ← d.fieldD "max_annotation_depth" base.annotationDepth
      parallelBatch := ← d.fieldD "parallel_batch" base.parallelBatch }

end Weft.Script
