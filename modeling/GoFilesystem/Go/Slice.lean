import GoFilesystem.Go.Str

/-!
# Slices and limited readers

Arithmetic on `int64` is that of `Int64`, which wraps; it is exact where the result
fits.  `s[low:high]` panics unless its bounds are in order, and an
`io.LimitReader` counts down how many bytes it may still return.
-/

namespace GoFilesystem.Go

section Int64

variable {a b : Int64}

theorem toInt_add_of_fits (hlow : -2 ^ 63 ≤ a.toInt + b.toInt)
    (hhigh : a.toInt + b.toInt < 2 ^ 63) :
    (a + b).toInt = a.toInt + b.toInt := by
  rw [Int64.toInt_add]
  exact Int.bmod_eq_of_le (by omega) (by omega)

theorem toInt_sub_of_fits (hlow : -2 ^ 63 ≤ a.toInt - b.toInt)
    (hhigh : a.toInt - b.toInt < 2 ^ 63) :
    (a - b).toInt = a.toInt - b.toInt := by
  rw [Int64.toInt_sub]
  exact Int.bmod_eq_of_le (by omega) (by omega)

theorem toInt_min (a b : Int64) : (min a b).toInt = min a.toInt b.toInt := by
  change (if a ≤ b then a else b).toInt = _
  split
  · next h => exact (min_eq_left (Int64.le_iff_toInt_le.mp h)).symm
  · next h =>
      have hlt : b.toInt < a.toInt := not_le.mp (fun h' ↦ h (Int64.le_iff_toInt_le.mpr h'))
      exact (min_eq_right hlt.le).symm

end Int64

/-- `s[low:high]`; `none` is a panic. -/
def slice {α : Type} (s : List α) (low high : Int) : Option (List α) :=
  if 0 ≤ low ∧ low ≤ high ∧ high ≤ s.length then some ((s.take high.toNat).drop low.toNat)
  else none

theorem slice_eq_some {α : Type} {s : List α} {low high : Int} (hlow : 0 ≤ low)
    (hle : low ≤ high) (hhigh : high ≤ s.length) :
    slice s low high = some ((s.drop low.toNat).take (high - low).toNat) := by
  have hcount : high.toNat - low.toNat = (high - low).toNat := by omega
  unfold slice
  rw [if_pos ⟨hlow, hle, hhigh⟩, List.drop_take, hcount]

/-- An `io.LimitReader`, over a reader that has some bytes left. -/
structure LimitedReader where
  rest : Str
  n : Int64

/-- What the reads of a limited reader return, up to its end. -/
inductive LimitedReader.Reads : LimitedReader → Str → Prop
  | stop {r : LimitedReader} (h : r.n ≤ 0) : Reads r []
  | eof {r : LimitedReader} (hn : 0 < r.n) (h : r.rest = []) : Reads r []
  | chunk {r : LimitedReader} {count : Nat} {data : Str} (hn : 0 < r.n) (hcount : 0 < count)
      (hrest : count ≤ r.rest.length) (hlimit : count ≤ r.n.toInt)
      (h : Reads ⟨r.rest.drop count, r.n - Int64.ofNat count⟩ data) :
      Reads r (r.rest.take count ++ data)

namespace LimitedReader

variable {r : LimitedReader} {data : Str}

theorem toInt_sub_ofNat {n : Int64} {count : Nat} (h : count ≤ n.toInt) :
    (n - Int64.ofNat count).toInt = n.toInt - count := by
  have hlt := n.toInt_lt
  have hcount : (Int64.ofNat count).toInt = count := Int64.toInt_ofNat_of_lt (by omega)
  rw [toInt_sub_of_fits, hcount] <;> omega

/-- A limited reader returns as many of the bytes as it may. -/
theorem Reads.eq (h : r.Reads data) : data = r.rest.take r.n.toInt.toNat := by
  induction h with
  | stop h =>
      rw [Int.toNat_of_nonpos (Int64.le_iff_toInt_le.mp h), List.take_zero]
  | eof _ h => rw [h, List.take_nil]
  | @chunk r count data _ _ hrest hlimit _ ih =>
      have hsplit : r.n.toInt.toNat = count + (r.n.toInt - count).toNat := by omega
      rw [ih, toInt_sub_ofNat hlimit, hsplit, List.take_add]

/-- It can be read to its end. -/
theorem reads_take (r : LimitedReader) : r.Reads (r.rest.take r.n.toInt.toNat) := by
  by_cases hn : r.n ≤ 0
  · have hzero : r.n.toInt.toNat = 0 := Int.toNat_of_nonpos (Int64.le_iff_toInt_le.mp hn)
    rw [hzero, List.take_zero]
    exact .stop hn
  · have hpos : 0 < r.n := Int64.not_le.mp hn
    have hpos' : (0 : Int) < r.n.toInt := Int64.lt_iff_toInt_lt.mp hpos
    rcases eq_or_ne r.rest [] with hnil | hnil
    · rw [hnil, List.take_nil]
      exact .eof hpos hnil
    · have hlength : 0 < r.rest.length := List.length_pos_iff.mpr hnil
      -- one read returns everything, and the next one the end
      let count := min r.n.toInt.toNat r.rest.length
      have hcount : count ≤ r.n.toInt := by omega
      have hnext : Reads ⟨r.rest.drop count, r.n - Int64.ofNat count⟩ [] := by
        rcases le_total r.n.toInt.toNat r.rest.length with hle | hle
        · refine .stop (Int64.le_iff_toInt_le.mpr ?_)
          rw [toInt_sub_ofNat hcount, Int64.toInt_zero]
          omega
        · by_cases hn' : r.n - Int64.ofNat count ≤ 0
          · exact .stop hn'
          · exact .eof (Int64.not_le.mp hn') (List.drop_eq_nil_of_le (by omega))
      have h := Reads.chunk hpos (by omega) (by omega) hcount hnext
      rwa [List.append_nil, ← List.take_eq_take_min] at h

end LimitedReader

end GoFilesystem.Go
