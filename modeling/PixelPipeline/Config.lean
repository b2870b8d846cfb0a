/-
# Config — the pipeline as a draw call asks for it

A configuration is what the caller writes down: an output format, tests
with their references, and features to switch on.  Options that are absent
are switched off.  Nothing here is normalised; two configurations that draw
the same pixels may well differ.
-/
import PixelPipeline.Comparison
import PixelPipeline.PixelFormat
import PixelPipeline.StencilAction
import PixelPipeline.Blending

namespace PixelPipeline

/-- Which buffers a clearing draw writes. -/
structure ClearFlags where
  color : Bool := false
  stencil : Bool := false
  depth : Bool := false
deriving DecidableEq

/-- Alpha test: the source alpha against a reference. -/
structure AlphaTest where
  func : Comparison
  reference : BitVec 8
deriving DecidableEq

/-- Stencil test: the reference against the stored stencil, both masked,
with an update for each way the pixel can go on. -/
structure StencilTest where
  func : Comparison
  reference : BitVec 8
  fail : StencilAction
  depthFail : StencilAction
  depthPass : StencilAction
deriving DecidableEq

/-- Blend of the working color with the stored one. -/
structure Blend where
  equation : BlendEquation
  src : BlendFactor
  dst : BlendFactor
deriving DecidableEq

/-- Pipeline configuration of one draw. -/
structure Config where
  format : PixelFormat := .rgba8888
  clear : Option ClearFlags := none
  alphaTest : Option AlphaTest := none
  depthTest : Option Comparison := none
  depthWrite : Bool := false
  depthRange : Bool := false
  stencilTest : Option StencilTest := none
  colorTest : Bool := false
  fog : Bool := false
  blend : Option Blend := none
  dither : Bool := false
  rasterOp : Bool := false
deriving DecidableEq

/-! ## Diagnostic text

A record is written as its name and its fields in order; an option as
`None` or `Some(…)`. -/

namespace Config

/-- One record: its name and its written fields. -/
def recordText (name : String) (fields : List (String × String)) : String :=
  name ++ " \x7b " ++ ", ".intercalate (fields.map fun (k, v) => k ++ ": " ++ v) ++ " \x7d"

/-- One option. -/
def optionText {α : Type} (text : α → String) : Option α → String
  | none => "None"
  | some a => "Some(" ++ text a ++ ")"

/-- A truth value. -/
def boolText (b : Bool) : String := if b then "true" else "false"

/-- A number. -/
def byteText (b : BitVec 8) : String := toString b.toNat

/-- The flags of a clear. -/
def clearText (c : ClearFlags) : String :=
  recordText "ClearFlags"
    [("color", boolText c.color), ("stencil", boolText c.stencil), ("depth", boolText c.depth)]

/-- An alpha test. -/
def alphaText (t : AlphaTest) : String :=
  recordText "AlphaTest"
    [("func", Named.spelling t.func), ("reference", byteText t.reference)]

/-- A stencil test. -/
def stencilText (t : StencilTest) : String :=
  recordText "StencilTest"
    [("func", Named.spelling t.func), ("reference", byteText t.reference),
     ("fail", Named.spelling t.fail), ("depth_fail", Named.spelling t.depthFail),
     ("depth_pass", Named.spelling t.depthPass)]

/-- A blend. -/
def blendText (b : Blend) : String :=
  recordText "Blend"
    [("eq", Named.spelling b.equation), ("src", Named.spelling b.src),
     ("dst", Named.spelling b.dst)]

/-- Diagnostic text of a configuration. -/
def text (c : Config) : String :=
  recordText "PipelineConfig"
    [("fb_format", Named.spelling c.format),
     ("clear", optionText clearText c.clear),
     ("alpha_test", optionText alphaText c.alphaTest),
     ("depth_test", optionText Named.spelling c.depthTest),
     ("depth_write", boolText c.depthWrite),
     ("depth_range", boolText c.depthRange),
     ("stencil_test", optionText stencilText c.stencilTest),
     ("color_test", boolText c.colorTest),
     ("fog", boolText c.fog),
     ("blend", optionText blendText c.blend),
     ("dither", boolText c.dither),
     ("logic_op", boolText c.rasterOp)]

end Config

end PixelPipeline
