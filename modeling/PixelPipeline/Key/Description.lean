/-
# Key.Description — features in words

The description of a pipeline names it in logs and in code-pointer reports:
the format, then one part for each feature that is on, joined by colons.
-/
import PixelPipeline.Key.Features
import PixelPipeline.Hexadecimal

namespace PixelPipeline

namespace Features

/-- Which buffers a clear writes. -/
def clearPart (f : Features) : List String :=
  if f.clearMode then
    ["CLEAR" ++ (if f.colorClear then "C" else "") ++ (if f.stencilClear then "S" else "") ++
      (if f.depthClear then "Z" else "")]
  else []

/-- A part that is there when a feature is on. -/
def flagPart (on : Bool) (part : String) : List String :=
  if on then [part] else []

/-- A masked reference: two hexadecimal digits, and `M` if a mask applies. -/
def referencePart (reference : BitVec 8) (masked : Bool) : String :=
  upperHex 2 reference.toNat ++ (if masked then "M" else "")

/-- The alpha test, unless it always passes. -/
def alphaPart (f : Features) : List String :=
  flagPart (f.alphaFunc != .always)
    ("AT=" ++ f.alphaFunc.tag ++ referencePart f.alphaRef f.alphaMasked)

/-- The stencil test and its three updates. -/
def stencilPart (f : Features) : List String :=
  flagPart f.stencilTest
    ("ST=" ++ f.stencilFunc.tag ++ referencePart f.stencilRef f.stencilMasked ++
      "(" ++ f.stencilFail.tag ++ "," ++ f.depthFail.tag ++ "," ++ f.depthPass.tag ++ ")")

/-- The depth test, unless it always passes. -/
def depthPart (f : Features) : List String :=
  flagPart (f.depthFunc != .always) ("ZT=" ++ f.depthFunc.tag)

/-- The blend equation, with its factors if it uses them. -/
def blendPart (f : Features) : List String :=
  flagPart f.blend
    (if f.blendEquation.usesFactors then
      "BLEND(" ++ f.blendEquation.tag ++ "," ++ f.blendSrc.tag ++ "," ++ f.blendDst.tag ++ ")"
    else "BLEND(" ++ f.blendEquation.tag ++ ")")

/-- The parts of a description in order. -/
def parts (f : Features) : List String :=
  [f.format.tag] ++ f.clearPart ++ flagPart f.depthRange "ZRANGE" ++ f.alphaPart ++
    flagPart f.colorTest "CT" ++ f.stencilPart ++ f.depthPart ++
    flagPart (f.depthWrite && !f.clearMode) "ZW" ++ flagPart f.fog "FOG" ++ f.blendPart ++
    flagPart f.dither "DITHER" ++ flagPart f.rasterOp "LOGIC" ++ flagPart f.writeMasked "MASK" ++
    flagPart (!f.standardStride) "STRIDE"

/-- The description of a pipeline. -/
def describe (f : Features) : String := ":".intercalate f.parts

end Features

end PixelPipeline
