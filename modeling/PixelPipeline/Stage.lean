/-
# Stage — the steps of a pixel's way through the pipeline
-/
import PixelPipeline.Named

namespace PixelPipeline

/-- Step of the pipeline that a piece of generated code belongs to. -/
inductive Stage where
  | init | depthRange | clampColor | alphaTest | fog | colorTest | stencilTest | depthTest
  | writeDepth | blend | dither | writeColor | rasterOp | writeStencil | exit
deriving DecidableEq

instance : Named Stage where
  members :=
    [.init, .depthRange, .clampColor, .alphaTest, .fog, .colorTest, .stencilTest, .depthTest,
     .writeDepth, .blend, .dither, .writeColor, .rasterOp, .writeStencil, .exit]
  spelling
    | .init => "Init"
    | .depthRange => "DepthRange"
    | .clampColor => "ClampColor"
    | .alphaTest => "AlphaTest"
    | .fog => "Fog"
    | .colorTest => "ColorTest"
    | .stencilTest => "StencilTest"
    | .depthTest => "DepthTest"
    | .writeDepth => "WriteDepth"
    | .blend => "Blend"
    | .dither => "Dither"
    | .writeColor => "WriteColor"
    | .rasterOp => "LogicOp"
    | .writeStencil => "WriteStencil"
    | .exit => "Exit"
  mem_members := by intro a; cases a <;> simp

end PixelPipeline
