/-
# Cache.Basic — compiled functions by key

A cache compiles each key once, on first use, and remembers failures too,
until it is cleared.  Functions follow one another in one code buffer;
clearing rewinds it.  What happens is told to a log.
-/
import PixelPipeline.Cache.Backend

namespace PixelPipeline

/-- Sizes of a cache. -/
structure CacheConfig where
  /-- Size of the code buffer in bytes. -/
  codeSize : Nat := 8 * 1024 * 1024
  /-- Free space that a compilation needs before it starts. -/
  minFree : Nat := maxFunctionSize

/-- What a cache tells its log. -/
inductive CacheEvent where
  | compiled (key : Key) (f : CompiledFunction)
  | failed (key : Key) (e : CompileError)
  | cleared (entries bytes : Nat)

/-- The log line of an event, its level first. -/
def CacheEvent.line : CacheEvent → String
  | compiled key f =>
      "DEBUG compiled " ++ key.describe ++ " at 0x" ++ lowerHex 1 f.start ++ ": " ++
        toString (f.stop - f.start) ++ " bytes, " ++ toString f.markers.length ++ " stages"
  | failed key e => "ERROR failed to compile " ++ key.describe ++ ": " ++ e.message
  | cleared entries bytes =>
      "DEBUG pixel jit cache cleared: " ++ toString entries ++ " entries, " ++ toString bytes ++
        " bytes"

/-- What became of a key. -/
structure CacheEntry where
  key : Key
  result : Except CompileError CompiledFunction

/-- Compiled functions by key, over a backend with state `σ`. -/
structure Cache (σ : Type) where
  /-- One entry for each key seen, first seen first. -/
  entries : List CacheEntry
  buffer : CodeBuffer
  /-- Bytes of code published. -/
  codeSize : Nat
  minFree : Nat
  backendState : σ
  /-- Events so far, first one first. -/
  log : List CacheEvent

namespace Cache

variable {σ : Type}

/-- An empty cache. -/
def empty (config : CacheConfig) (backendState : σ) : Cache σ where
  entries := []
  buffer := .ofSize config.codeSize
  codeSize := 0
  minFree := config.minFree
  backendState := backendState
  log := []

/-- Keys seen, failures included. -/
def size (c : Cache σ) : Nat := c.entries.length

/-- What became of a key, if it has been seen. -/
def find? (c : Cache σ) (word : BitVec 64) : Option (Except CompileError CompiledFunction) :=
  (c.entries.find? (·.key.word == word)).map (·.result)

/-- Record a key's result and tell the log. -/
def record (c : Cache σ) (key : Key) (result : Except CompileError CompiledFunction)
    (event : CacheEvent) : Cache σ :=
  { c with entries := c.entries ++ [⟨key, result⟩], log := c.log ++ [event] }

/-- Record an error. -/
def recordError (c : Cache σ) (key : Key) (e : CompileError) : Cache σ :=
  c.record key (.error e) (.failed key e)

/-- Compile a key that has not been seen.  A fault is not remembered. -/
def compile (backend : Backend σ) (key : Key) (c : Cache σ) :
    Except Failure CompiledFunction × Cache σ :=
  if c.buffer.remaining < c.minFree then
    let e := .bufferFull c.buffer.remaining c.minFree
    (.error (.error e), c.recordError key e)
  else
    match backend key (c.buffer, c.backendState) with
    | .ok f (b, s) =>
        let c := { c with buffer := b, backendState := s, codeSize := b.offset }
        (.ok f, c.record key (.ok f) (.compiled key f))
    | .error (.error e) (b, s) =>
        let c := { c with buffer := b, backendState := s }
        (.error (.error e), c.recordError key e)
    | .error (.fault f) (b, s) =>
        (.error (.fault f), { c with buffer := b, backendState := s })

/-- The function of a key, compiled on first use. -/
def get (backend : Backend σ) (key : Key) (c : Cache σ) :
    Except Failure CompiledFunction × Cache σ :=
  match c.find? key.word with
  | some (.ok f) => (.ok f, c)
  | some (.error e) => (.error (.error e), c)
  | none => compile backend key c

/-- Forget every entry and rewind the code buffer. -/
def clear (c : Cache σ) : Cache σ :=
  { c with
    entries := []
    buffer := { c.buffer with offset := 0, offset_le := Nat.zero_le _ }
    codeSize := 0
    log := c.log ++ [.cleared c.size c.buffer.offset] }

/-! ## Code pointers -/

/-- Key and stage of an entry's code at an offset. -/
def describeEntry (offset : Nat) (e : CacheEntry) : Option String :=
  match e.result with
  | .ok f => (f.stageAt? offset).map fun s => e.key.describe ++ ": " ++ Named.spelling s
  | .error _ => none

/-- Key and stage of the code at a distance from the start of the buffer; none
outside compiled code. -/
def describe? (c : Cache σ) (distance : Int) : Option String :=
  if 0 ≤ distance ∧ distance < c.codeSize then
    c.entries.findSome? (describeEntry distance.toNat)
  else none

/-- Descriptions at `count` distances from `start` on: the first, and each that
differs from the one before. -/
def describeRange (c : Cache σ) (start : Int) (count : Nat) : List (Int × Option String) :=
  let all := (List.range count).map fun (i : Nat) =>
    (start + (i : Int), c.describe? (start + (i : Int)))
  (all.zip (none :: all.map (fun d => some d.2))).filterMap fun (d, before) =>
    if before = some d.2 then none else some d

/-! ## Requests in sequence -/

/-- A request to a cache. -/
inductive Request where
  | get (key : Key)
  | clear

/-- The cache after a request. -/
def step (backend : Backend σ) (c : Cache σ) : Request → Cache σ
  | .get key => (c.get backend key).2
  | .clear => c.clear

/-- The cache after requests in sequence. -/
def run (backend : Backend σ) (c : Cache σ) (rs : List Request) : Cache σ :=
  rs.foldl (step backend) c

end Cache

end PixelPipeline
