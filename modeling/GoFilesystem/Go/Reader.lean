import GoFilesystem.Go.Str

/-!
# Readers

An `io.Reader` that hands out a byte sequence.  How it cuts the sequence into
reads, when it reports an error and which, is left to its state; a reader may
return bytes and an error at once, and neither.
-/

namespace GoFilesystem.Go

/-- What `Read` returns: the bytes it has written to the buffer, and its error. -/
structure ReadResult (ε : Type) where
  bytes : Str
  err : Option ε
deriving DecidableEq

/-- An `io.Reader` of a byte sequence.  In each state some bytes are left; a read
returns the next of them, at most as many as the buffer holds. -/
structure Reader (σ ε : Type) where
  rest : σ → Str
  read : σ → Nat → ReadResult ε × σ
  length_le : ∀ s n, (read s n).1.bytes.length ≤ n
  rest_eq : ∀ s n, (read s n).1.bytes ++ rest (read s n).2 = rest s

end GoFilesystem.Go
