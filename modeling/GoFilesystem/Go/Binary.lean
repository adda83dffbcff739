import GoFilesystem.Go.Str

/-!
# The package `encoding/binary`

Numbers as bytes, the least significant first, and writing them into a buffer.
-/

namespace GoFilesystem.Go

/-- The `width` low bytes of a number, the least significant first. -/
def leBytes : Nat → Nat → Str
  | 0, _ => []
  | width + 1, n => UInt8.ofNat n :: leBytes width (n / 256)

/-- The number that bytes spell, the least significant first. -/
def leNat : Str → Nat
  | [] => 0
  | b :: s => b.toNat + 256 * leNat s

@[simp] theorem length_leBytes (width n : Nat) : (leBytes width n).length = width := by
  induction width generalizing n with
  | zero => rfl
  | succ width ih => rw [leBytes, List.length_cons, ih]

/-- A number that fits is read back. -/
theorem leNat_leBytes {width n : Nat} (h : n < 256 ^ width) : leNat (leBytes width n) = n := by
  induction width generalizing n with
  | zero =>
      obtain rfl : n = 0 := by omega
      rfl
  | succ width ih =>
      have hrest : n / 256 < 256 ^ width := by
        rw [Nat.div_lt_iff_lt_mul (by decide), ← Nat.pow_succ]
        exact h
      rw [leBytes, leNat, ih hrest, UInt8.toNat_ofNat']
      omega

/-- `binary.LittleEndian.Put…(buffer[low:high], n)` of a number of some width;
`none` is a panic. -/
def put (width : Nat) (buffer : Str) (low high : Int) (n : Nat) : Option Str :=
  if 0 ≤ low ∧ low + width ≤ high ∧ high ≤ buffer.length then
    some (buffer.take low.toNat ++ leBytes width n ++ buffer.drop (low.toNat + width))
  else none

/-- A number replaces as many bytes as it has. -/
theorem put_append {width : Nat} {before old after : Str} {low high : Int} (n : Nat)
    (hold : old.length = width) (hlow : low = before.length) (hwidth : low + width ≤ high)
    (hhigh : high ≤ (before ++ old ++ after).length) :
    put width (before ++ old ++ after) low high n = some (before ++ leBytes width n ++ after) := by
  subst hlow hold
  rw [put, if_pos ⟨Int.natCast_nonneg _, hwidth, hhigh⟩, Int.toNat_natCast, ← List.length_append,
    List.drop_left, List.append_assoc before old, List.take_left]

end GoFilesystem.Go
