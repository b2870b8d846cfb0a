/-
# Drawing — pixels drawn one at a time into buffers

A drawing holds a color and a depth buffer, the registers, and a cache of
compiled functions.  Drawing a pixel compiles its pipeline if need be and
runs the function on a machine whose memory holds the buffers, the
registers, the key, the constants and the code.  What the function stored
is then found in the buffers.
-/
import PixelPipeline.Cache.Basic
import PixelPipeline.X86.Call

namespace PixelPipeline

open X86

/-- Arguments of a pixel function. -/
structure PixelArgs where
  x : BitVec 32
  y : BitVec 32
  z : BitVec 16
  fog : BitVec 8
  color : BitVec 32

/-- A key with the function it was compiled to. -/
structure BoundKey where
  key : Key
  function : CompiledFunction

/-- Buffers, registers, and functions compiled so far. -/
structure Drawing where
  /-- Cells of the depth buffer, and 32-bit cells of the color buffer. -/
  cells : Nat
  state : DrawState
  color : Array Byte
  depth : Array Byte
  cache : Cache Unit
  bound : Option BoundKey := none

namespace Drawing

/-! ## Where things lie in memory

Everything lies above the first four gigabytes. -/

/-- Address of the code buffer. -/
def codeBase : Nat := 0x7f0000000000

/-- Address of the register block. -/
def stateBase : Nat := 0x7f1000000000

/-- Address of the vector constants. -/
def poolBase : Nat := 0x7f2000000000

/-- Address of the key. -/
def keyBase : Nat := 0x7f3000000000

/-- Address of the color buffer. -/
def colorBase : Nat := 0x7f4000000000

/-- Address of the depth buffer. -/
def depthBase : Nat := 0x7f6000000000

/-- Size of the code buffer of a drawing. -/
def codeCapacity : Nat := 1024 * 1024

/-- Addresses that compiled code contains. -/
def dataAddresses : DataAddresses where
  state := BitVec.ofNat 64 stateBase
  pool := BitVec.ofNat 64 poolBase

/-- The compiler of a drawing. -/
def backend : Backend Unit := .generator dataAddresses (BitVec.ofNat 64 codeBase)

/-- A drawing with buffers filled with one value each. -/
def new (cells : Nat) (colorFill : BitVec 32) (depthFill : BitVec 16) (state : DrawState) :
    Drawing where
  cells := cells
  state := state
  color := ((List.replicate cells (le32 colorFill)).flatten).toArray
  depth := ((List.replicate cells (le16 depthFill)).flatten).toArray
  cache := .empty { codeSize := codeCapacity } ()

/-! ## Reading and setting cells -/

/-- A stored pixel, by its index in units of the format. -/
def pixelAt (buffer : Array Byte) (format : PixelFormat) (i : Nat) : BitVec 32 :=
  let byte (k : Nat) : Byte := buffer.getD (format.bytesPerPixel * i + k) 0
  if format.bytesPerPixel = 2 then (word16 (byte 0) (byte 1)).setWidth 32
  else word32 (byte 0) (byte 1) (byte 2) (byte 3)

/-- A stored depth value. -/
def depthAt (buffer : Array Byte) (i : Nat) : BitVec 16 :=
  word16 (buffer.getD (2 * i) 0) (buffer.getD (2 * i + 1) 0)

/-- Replace bytes of a buffer; bytes past its end are dropped. -/
def overwrite (buffer : Array Byte) (pos : Nat) (bytes : List Byte) : Array Byte :=
  (bytes.zipIdx pos).foldl (fun a (v, i) => a.setIfInBounds i v) buffer

/-- Set one pixel. -/
def setPixel (d : Drawing) (format : PixelFormat) (i : Nat) (v : BitVec 32) : Drawing :=
  let bytes := if format.bytesPerPixel = 2 then le16 (v.setWidth 16) else le32 v
  { d with color := overwrite d.color (format.bytesPerPixel * i) bytes }

/-- Set one depth cell. -/
def setDepth (d : Drawing) (i : Nat) (v : BitVec 16) : Drawing :=
  { d with depth := overwrite d.depth (2 * i) (le16 v) }

/-! ## Running a function -/

/-- Memory for a call under a key. -/
def memory (d : Drawing) (key : Key) : Memory :=
  let state := d.state.bytes (BitVec.ofNat 64 colorBase) (BitVec.ofNat 64 depthBase)
  Block.memory
    [⟨codeBase, d.cache.buffer.written⟩, ⟨stateBase, state.toArray⟩,
     ⟨poolBase, VectorPool.bytes.toArray⟩, ⟨keyBase, key.bytes.toArray⟩,
     ⟨colorBase, d.color⟩, ⟨depthBase, d.depth⟩]

/-- Arguments as the function finds them in registers. -/
def arguments (a : PixelArgs) : List (BitVec 64) :=
  [a.x.setWidth 64, a.y.setWidth 64, a.z.setWidth 64, a.fog.setWidth 64, a.color.setWidth 64,
   BitVec.ofNat 64 keyBase]

/-- A function runs forward but for one dispatch, so no instruction is carried
out twice. -/
def callFuel : Nat := 2 * maxFunctionSize

/-- The machine after a call of the function at an offset. -/
def call (d : Drawing) (bound : BoundKey) (a : PixelArgs) : Option Cpu :=
  let c := (Cpu.reset (d.memory bound.key)).withArguments (arguments a)
  Machine.call callFuel (BitVec.ofNat 64 (codeBase + bound.function.start)) c

/-- The index of the pixel under a stride; it wraps at 32 bits. -/
def indexOf (stride : BitVec 16) (a : PixelArgs) : Nat :=
  (a.y * stride.setWidth 32 + a.x).toNat

/-- The pixel lies in both buffers. -/
def inBounds (d : Drawing) (key : Key) (a : PixelArgs) : Bool :=
  let standard := key.features.standardStride
  let fb := if standard then standardStride else d.state.fbStride
  let depth := if standard then standardStride else d.state.depthStride
  decide (indexOf fb a < d.cells ∧ indexOf depth a < d.cells)

/-- Cells that a call changed, with their new values, in ascending order. -/
structure Changes where
  color : List (Nat × BitVec 32)
  depth : List (Nat × BitVec 16)

/-- Apply stores to a buffer at an address, first one first. -/
def applyStores (buffer : Array Byte) (base : Nat) (stores : List (Address × Byte)) : Array Byte :=
  stores.foldr (fun (a, v) b =>
    if base ≤ a.toNat then b.setIfInBounds (a.toNat - base) v else b) buffer

/-- Indices of the cells of some size that stores touched, in ascending order. -/
def touched (buffer : Array Byte) (base cellSize : Nat) (stores : List (Address × Byte)) :
    List Nat :=
  let offsets := stores.filterMap fun (a, _) =>
    if base ≤ a.toNat ∧ a.toNat < base + buffer.size then some ((a.toNat - base) / cellSize)
    else none
  offsets.eraseDups.mergeSort

/-- Cells among the touched ones whose value changed. -/
def changedCells {w : Nat} (read : Array Byte → Nat → BitVec w) (before after : Array Byte)
    (indices : List Nat) : List (Nat × BitVec w) :=
  indices.filterMap fun i =>
    let v := read after i
    if read before i = v then none else some (i, v)

/-- What running a function answers. -/
inductive Result where
  | drawn (changes : Changes)
  | outOfBounds
  | failed (e : Failure)

/-- Run a function under its key. -/
def invoke (d : Drawing) (bound : BoundKey) (a : PixelArgs) : Result × Drawing :=
  if !d.inBounds bound.key a then (.outOfBounds, d)
  else
    match d.call bound a with
    | none => (.failed (.fault .violation), d)
    | some c =>
        let stores := c.mem.stores
        let format := bound.key.features.format
        let color := applyStores d.color colorBase stores
        let depth := applyStores d.depth depthBase stores
        let changes :=
          { color := changedCells (pixelAt · format) d.color color
              (touched d.color colorBase format.bytesPerPixel stores)
            depth := changedCells depthAt d.depth depth (touched d.depth depthBase 2 stores) }
        (.drawn changes, { d with color := color, depth := depth })

/-- The key of a configuration under the current registers, and its function. -/
def lookup (d : Drawing) (config : Config) : Except Failure BoundKey × Drawing :=
  let key := Key.ofConfig config d.state
  match d.cache.get backend key with
  | (.ok f, cache) => (.ok ⟨key, f⟩, { d with cache := cache })
  | (.error e, cache) => (.error e, { d with cache := cache })

/-- Draw one pixel with a configuration under the current registers. -/
def draw (d : Drawing) (config : Config) (a : PixelArgs) : Result × Drawing :=
  match d.lookup config with
  | (.ok bound, d) => d.invoke bound a
  | (.error e, d) => (.failed e, d)

/-- Remember the key and the function of a configuration. -/
def bind (d : Drawing) (config : Config) : Except Failure BoundKey × Drawing :=
  match d.lookup config with
  | (.ok bound, d) => (.ok bound, { d with bound := some bound })
  | (.error e, d) => (.error e, d)

end Drawing

end PixelPipeline
