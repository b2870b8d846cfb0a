import PixelPipeline.Allocation.RegSet
import PixelPipeline.Allocation.Role
import PixelPipeline.Allocation.RoleTable
import PixelPipeline.Allocation.Session
import PixelPipeline.BlendPlan
import PixelPipeline.Blending
import PixelPipeline.Bytes
import PixelPipeline.Cache.Backend
import PixelPipeline.Cache.Basic
import PixelPipeline.Code.Assembling
import PixelPipeline.Code.Buffer
import PixelPipeline.Code.Label
import PixelPipeline.Code.Layout
import PixelPipeline.Code.Padding
import PixelPipeline.Code.Tree
import PixelPipeline.Color
import PixelPipeline.Comparison
import PixelPipeline.Compile.Address
import PixelPipeline.Compile.Blending
import PixelPipeline.Compile.Emit
import PixelPipeline.Compile.Env
import PixelPipeline.Compile.Function
import PixelPipeline.Compile.Shading
import PixelPipeline.Compile.Stencil
import PixelPipeline.Compile.Tests
import PixelPipeline.Compile.Write
import PixelPipeline.CompileError
import PixelPipeline.Config
import PixelPipeline.Conversion
import PixelPipeline.ConversionCall
import PixelPipeline.DrawState
import PixelPipeline.Drawing
import PixelPipeline.Hexadecimal
import PixelPipeline.Key
import PixelPipeline.Key.Description
import PixelPipeline.Key.Features
import PixelPipeline.Key.Word
import PixelPipeline.Named
import PixelPipeline.PixelFormat
import PixelPipeline.Proofs.Apart
import PixelPipeline.Proofs.Assembling
import PixelPipeline.Proofs.Attribution
import PixelPipeline.Proofs.Blend
import PixelPipeline.Proofs.Calls
import PixelPipeline.Proofs.Chronicle
import PixelPipeline.Proofs.Clearing
import PixelPipeline.Proofs.Compiles
import PixelPipeline.Proofs.Conversions
import PixelPipeline.Proofs.Cpu
import PixelPipeline.Proofs.Decoding
import PixelPipeline.Proofs.Descriptions
import PixelPipeline.Proofs.Detours
import PixelPipeline.Proofs.Draw
import PixelPipeline.Proofs.Drawn
import PixelPipeline.Proofs.Effects
import PixelPipeline.Proofs.Emission
import PixelPipeline.Proofs.Endings
import PixelPipeline.Proofs.Fixups
import PixelPipeline.Proofs.Folding
import PixelPipeline.Proofs.Joined
import PixelPipeline.Proofs.Lanes
import PixelPipeline.Proofs.Leads
import PixelPipeline.Proofs.Masks
import PixelPipeline.Proofs.Memoisation
import PixelPipeline.Proofs.Memory
import PixelPipeline.Proofs.NormalForm
import PixelPipeline.Proofs.Occupancy
import PixelPipeline.Proofs.Outcome
import PixelPipeline.Proofs.Padding
import PixelPipeline.Proofs.Pixels
import PixelPipeline.Proofs.Placement
import PixelPipeline.Proofs.Places
import PixelPipeline.Proofs.Pointers
import PixelPipeline.Proofs.Published
import PixelPipeline.Proofs.Recognition
import PixelPipeline.Proofs.Reference
import PixelPipeline.Proofs.Relocation
import PixelPipeline.Proofs.Room
import PixelPipeline.Proofs.Routines
import PixelPipeline.Proofs.Running
import PixelPipeline.Proofs.Selections
import PixelPipeline.Proofs.Sessions
import PixelPipeline.Proofs.Settled
import PixelPipeline.Proofs.Shading
import PixelPipeline.Proofs.Shared
import PixelPipeline.Proofs.Stages
import PixelPipeline.Proofs.Stencil
import PixelPipeline.Proofs.Succeeds
import PixelPipeline.Proofs.Table
import PixelPipeline.Proofs.Tame
import PixelPipeline.Proofs.Telling
import PixelPipeline.Proofs.Tests
import PixelPipeline.Proofs.Unmarked
import PixelPipeline.Proofs.Untouched
import PixelPipeline.Proofs.Variants
import PixelPipeline.Proofs.View
import PixelPipeline.Proofs.Visible
import PixelPipeline.Proofs.Write
import PixelPipeline.RasterOp
import PixelPipeline.Stage
import PixelPipeline.StencilAction
import PixelPipeline.VectorPool
import PixelPipeline.X86.Call
import PixelPipeline.X86.Cpu
import PixelPipeline.X86.Decoding
import PixelPipeline.X86.Encoding
import PixelPipeline.X86.Flags
import PixelPipeline.X86.Instruction
import PixelPipeline.X86.Lanes
import PixelPipeline.X86.Machine
import PixelPipeline.X86.Memory
import PixelPipeline.X86.Register
