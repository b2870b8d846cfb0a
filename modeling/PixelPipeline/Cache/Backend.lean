/-
# Cache.Backend — who compiles for a cache

A backend compiles a key to the end of a code buffer and may keep a state of
its own.  One backend generates code; another counts its calls and fails
some of them, emitting nothing.
-/
import PixelPipeline.Compile.Function
import PixelPipeline.Key

namespace PixelPipeline

/-- A compiler of keys, with a state of its own. -/
abbrev Backend (σ : Type) := Key → EStateM Failure (CodeBuffer × σ) CompiledFunction

namespace Backend

/-- Generate code for a buffer at address `base`. -/
def generator (addresses : DataAddresses) (base : BitVec 64) : Backend Unit := fun key s =>
  match Compile.function key.features addresses base s.1 with
  | .ok f b => .ok f (b, ())
  | .error e b => .error e (b, ())

/-- Count calls from zero, and fail those that have an error in store. -/
def failing (errors : Nat → Option CompileError) (backend : Backend Unit) : Backend Nat :=
  fun key s =>
    match errors s.2 with
    | some e => .error (.error e) (s.1, s.2 + 1)
    | none =>
        match backend key (s.1, ()) with
        | .ok f (b, ()) => .ok f (b, s.2 + 1)
        | .error e (b, ()) => .error e (b, s.2 + 1)

end Backend

end PixelPipeline
