import GoFilesystem.Errors
import GoFilesystem.Go.Reader
import GoFilesystem.Go.Slice

/-!
# Injected faults

The faulty reader of the test package (`fstest/fault.go`).  It hands out the bytes
of a reader it wraps, in pieces of limited size, inverts those at given offsets,
and fails once a given number of bytes has been delivered.

| source | here |
|---|---|
| `FaultReaderOptions` | `FaultReaderOptions`, without the latency |
| `NewFaultReader` | `newFaultReader` |
| `FaultReader.Read` | `FaultReader.read`; its field `read` is `total` |

The latency is a sleep before each read and has no part in what a read returns.
The caller's buffer is given by its length, the content of the wrapped reader by
what it has left; that content is a byte sequence of Go, so that its length fits
an `int64`.
-/

namespace GoFilesystem.Fstest

open Go

/-- `FaultReaderOptions`. -/
structure FaultReaderOptions where
  maxChunk : Int64 := 0
  failAfter : Int64 := 0
  err : Option Err := none
  corruptOffsets : List Int64 := []

def FaultReaderOptions.injected (options : FaultReaderOptions) : Err :=
  options.err.getD (.sentinel .unexpectedEOF)

/-- `FaultReader`, with the state of the reader it wraps. -/
structure FaultReader (σ : Type) where
  reader : σ
  maxChunk : Int64
  failAfter : Int64
  err : Err
  total : Int64 := 0
  corrupt : Finset Int64

/-- `NewFaultReader`. -/
def newFaultReader {σ : Type} (reader : σ) (options : FaultReaderOptions) : FaultReader σ where
  reader := reader
  maxChunk := options.maxChunk
  failAfter := options.failAfter
  err := options.injected
  corrupt := (options.corruptOffsets.filter fun offset ↦ 0 ≤ offset).toFinset

namespace FaultReader

variable {σ : Type}

/-- Failures are injected and the bytes before them have been delivered. -/
def exhausted (r : FaultReader σ) : Bool := 0 ≤ r.failAfter && r.failAfter ≤ r.total

/-- How much `Read` asks of the wrapped reader for a buffer of a length. -/
def limit (r : FaultReader σ) (length : Nat) : Nat :=
  let limit := if 0 < r.maxChunk ∧ r.maxChunk.toInt < length then r.maxChunk.toInt.toNat else length
  if 0 ≤ r.failAfter then
    let remaining := r.failAfter - r.total
    if remaining.toInt < limit then remaining.toInt.toNat else limit
  else limit

/-- The loop of `Read` over the bytes it has read. -/
def invert (r : FaultReader σ) (bytes : Str) : Str :=
  bytes.mapIdx fun index byte ↦
    if r.total + Int64.ofNat index ∈ r.corrupt then ~~~byte else byte

def advance (r : FaultReader σ) (reader : σ) (count : Nat) : FaultReader σ :=
  { r with reader, total := r.total + Int64.ofNat count }

/-- `Read`. -/
def read (wrapped : Reader σ Err) (r : FaultReader σ) (length : Nat) :
    ReadResult Err × FaultReader σ :=
  if r.exhausted then (⟨[], some r.err⟩, r)
  else
    let (result, reader) := wrapped.read r.reader (r.limit length)
    let next := r.advance reader result.bytes.length
    if next.exhausted then (⟨r.invert result.bytes, some r.err⟩, next)
    else (⟨r.invert result.bytes, result.err⟩, next)

/-- The reads of a caller with buffers of some lengths. -/
def reads (wrapped : Reader σ Err) (r : FaultReader σ) :
    List Nat → List (ReadResult Err) × FaultReader σ
  | [] => ([], r)
  | length :: lengths =>
    let (result, next) := r.read wrapped length
    let (results, last) := next.reads wrapped lengths
    (result :: results, last)

end FaultReader

def delivered (results : List (ReadResult Err)) : Str := results.flatMap ReadResult.bytes

/-- The source, with the bytes at the listed offsets inverted. -/
def FaultReaderOptions.inverted (options : FaultReaderOptions) (source : Str) : Str :=
  source.mapIdx fun index byte ↦
    if ∃ offset ∈ options.corruptOffsets, offset.toInt = index then ~~~byte else byte

variable {σ : Type} {wrapped : Reader σ Err} {options : FaultReaderOptions} {source : Str}
  {position length : Nat} {r : FaultReader σ}

/-- The state of a reader that has delivered the bytes of the source up to a
position. -/
structure At (wrapped : Reader σ Err) (options : FaultReaderOptions) (source : Str)
    (position : Nat) (r : FaultReader σ) : Prop where
  maxChunk : r.maxChunk = options.maxChunk
  failAfter : r.failAfter = options.failAfter
  err : r.err = options.injected
  corrupt : r.corrupt = (options.corruptOffsets.filter fun offset ↦ 0 ≤ offset).toFinset
  total : r.total.toInt = position
  rest : wrapped.rest r.reader = source.drop position
  within : position ≤ source.length
  cutoff : 0 ≤ options.failAfter.toInt → position ≤ options.failAfter.toInt

theorem at_newFaultReader (wrapped : Reader σ Err) (s : σ) (options : FaultReaderOptions) :
    At wrapped options (wrapped.rest s) 0 (newFaultReader s options) where
  maxChunk := rfl
  failAfter := rfl
  err := rfl
  corrupt := rfl
  total := rfl
  rest := rfl
  within := Nat.zero_le _
  cutoff h := h

namespace At

theorem exhausted_iff (h : At wrapped options source position r) :
    r.exhausted = true ↔ 0 ≤ options.failAfter.toInt ∧ options.failAfter.toInt ≤ position := by
  rw [FaultReader.exhausted, h.failAfter, Bool.and_eq_true, decide_eq_true_eq, decide_eq_true_eq,
    Int64.le_iff_toInt_le, Int64.le_iff_toInt_le, h.total, Int64.toInt_zero]

/-- A read asks for no more than the buffer holds, than a chunk and than what may
still be delivered. -/
theorem limit_le (h : At wrapped options source position r) (hopen : r.exhausted = false)
    (length : Nat) :
    r.limit length ≤ length ∧
      (0 < options.maxChunk.toInt → r.limit length ≤ options.maxChunk.toInt) ∧
      (0 ≤ options.failAfter.toInt → position + r.limit length ≤ options.failAfter.toInt) := by
  have hremaining : 0 ≤ options.failAfter.toInt →
      (r.failAfter - r.total).toInt = options.failAfter.toInt - position := by
    intro hfail
    have hcutoff := h.cutoff hfail
    have hmax := options.failAfter.toInt_lt
    have htotal := h.total
    rw [h.failAfter, toInt_sub_of_fits (by omega) (by omega), h.total]
  unfold FaultReader.limit
  rw [h.maxChunk]
  rw [← Bool.not_eq_true, h.exhausted_iff] at hopen
  simp only [Int64.lt_iff_toInt_lt, Int64.le_iff_toInt_le, Int64.toInt_zero]
  rw [h.failAfter] at hremaining ⊢
  by_cases hfail : 0 ≤ options.failAfter.toInt
  · rw [if_pos hfail, hremaining hfail]
    split_ifs <;> omega
  · rw [if_neg hfail]
    split_ifs <;> omega

/-- The bytes of a read come out as those of the source at the position. -/
theorem invert_eq (h : At wrapped options source position r) (hfits : source.length < 2 ^ 63)
    {bytes : Str} (hbytes : bytes <+: source.drop position) :
    r.invert bytes = ((options.inverted source).drop position).take bytes.length := by
  have hlength : bytes.length ≤ source.length - position := by
    simpa using hbytes.length_le
  apply List.ext_getElem
  · simp [FaultReader.invert, FaultReaderOptions.inverted, hlength]
  · intro i hi _
    have hi' : i < bytes.length := by simpa [FaultReader.invert] using hi
    have hbyte : bytes[i] = source[position + i] := by
      rw [hbytes.getElem hi', List.getElem_drop]
    have hoffset : (r.total + Int64.ofNat i).toInt = (position + i : Nat) := by
      have hi64 : (Int64.ofNat i).toInt = i := Int64.toInt_ofNat_of_lt (by omega)
      rw [toInt_add_of_fits (by rw [h.total, hi64]; omega) (by rw [h.total, hi64]; omega), h.total,
        hi64]
      push_cast
      rfl
    have hmem : r.total + Int64.ofNat i ∈ r.corrupt ↔
        ∃ offset ∈ options.corruptOffsets, offset.toInt = (position + i : Nat) := by
      rw [h.corrupt, List.mem_toFinset, List.mem_filter, decide_eq_true_eq, ← hoffset]
      constructor
      · exact fun hmem ↦ ⟨_, hmem.1, rfl⟩
      · rintro ⟨offset, hmem, heq⟩
        obtain rfl := Int64.toInt_inj.mp heq
        refine ⟨hmem, ?_⟩
        rw [Int64.le_iff_toInt_le, hoffset, Int64.toInt_zero]
        omega
    simp only [FaultReader.invert, FaultReaderOptions.inverted, List.getElem_mapIdx,
      List.getElem_take, List.getElem_drop, hmem, hbyte]

/-- The state after the bytes have been delivered. -/
theorem advance (h : At wrapped options source position r) (hfits : source.length < 2 ^ 63)
    {bytes : Str} {reader : σ} (hrest : bytes ++ wrapped.rest reader = source.drop position)
    (hcutoff : 0 ≤ options.failAfter.toInt → position + bytes.length ≤ options.failAfter.toInt) :
    At wrapped options source (position + bytes.length) (r.advance reader bytes.length) := by
  have hlength : bytes.length ≤ source.length - position := by
    simpa using (List.IsPrefix.length_le ⟨_, hrest⟩ : bytes.length ≤ (source.drop position).length)
  have hwithin := h.within
  have htotal := h.total
  have hcount : (Int64.ofNat bytes.length).toInt = bytes.length :=
    Int64.toInt_ofNat_of_lt (by omega)
  refine ⟨h.maxChunk, h.failAfter, h.err, h.corrupt, ?_, ?_, by omega, fun hfail ↦ ?_⟩
  · change (r.total + Int64.ofNat bytes.length).toInt = _
    rw [toInt_add_of_fits (by omega) (by omega), hcount, htotal]
    push_cast
    rfl
  · change wrapped.rest reader = _
    rw [← List.drop_drop, ← hrest, List.drop_left]
  · have := hcutoff hfail
    push_cast
    exact this

end At

/-! ## One read -/

/-- What a read may return after the source has been delivered up to a position:
bytes of the source from there on, inverted where they are to be, with the
injected error if this read or an earlier one has reached the cutoff, and else
with the error of the wrapped reader. -/
structure Faithful (wrapped : Reader σ Err) (options : FaultReaderOptions) (source : Str)
    (position length : Nat) (reader : σ) (result : ReadResult Err) : Prop where
  bytes : result.bytes =
    ((options.inverted source).drop position).take result.bytes.length
  chunk : 0 < options.maxChunk.toInt → result.bytes.length ≤ options.maxChunk.toInt
  buffer : result.bytes.length ≤ length
  refuses : position = options.failAfter.toInt → result = ⟨[], some options.injected⟩
  injects : 0 ≤ options.failAfter.toInt →
    position + result.bytes.length = options.failAfter.toInt → result.err = some options.injected
  passes : (0 ≤ options.failAfter.toInt →
    position + result.bytes.length < options.failAfter.toInt) →
    ∃ limit, limit ≤ length ∧ (wrapped.read reader limit).1.err = result.err ∧
      (wrapped.read reader limit).1.bytes.length = result.bytes.length

/-- A read that is not refused delivers what the wrapped reader returns. -/
theorem read_of_open {result : ReadResult Err} {reader : σ} (hopen : r.exhausted = false)
    (hread : wrapped.read r.reader (r.limit length) = (result, reader)) :
    r.read wrapped length =
      (⟨r.invert result.bytes,
        if (r.advance reader result.bytes.length).exhausted then some r.err else result.err⟩,
        r.advance reader result.bytes.length) := by
  rw [FaultReader.read, hopen, if_neg Bool.false_ne_true, hread]
  dsimp only
  split_ifs <;> rfl

theorem length_invert (r : FaultReader σ) (bytes : Str) : (r.invert bytes).length = bytes.length :=
  List.length_mapIdx

theorem read_faithful (h : At wrapped options source position r) (hfits : source.length < 2 ^ 63)
    (length : Nat) :
    Faithful wrapped options source position length r.reader (r.read wrapped length).1 ∧
      At wrapped options source (position + (r.read wrapped length).1.bytes.length)
        (r.read wrapped length).2 := by
  cases hopen : r.exhausted with
  | true =>
      rw [FaultReader.read, if_pos hopen, h.err]
      obtain ⟨hfail, hreached⟩ := h.exhausted_iff.mp hopen
      refine ⟨⟨rfl, fun hchunk ↦ hchunk.le, Nat.zero_le _, fun _ ↦ rfl, fun _ _ ↦ rfl,
        fun hbelow ↦ ?_⟩, h⟩
      have hlt : (position : Int) + (0 : Nat) < options.failAfter.toInt := hbelow hfail
      omega
  | false =>
      obtain ⟨hbuffer, hchunk, hcutoff⟩ := h.limit_le hopen length
      rcases hread : wrapped.read r.reader (r.limit length) with ⟨result, reader⟩
      have hle : result.bytes.length ≤ r.limit length := by
        simpa only [hread] using wrapped.length_le r.reader (r.limit length)
      have hrest : result.bytes ++ wrapped.rest reader = source.drop position := by
        simpa only [hread, h.rest] using wrapped.rest_eq r.reader (r.limit length)
      have hnext := h.advance hfits hrest fun hfail ↦ by have := hcutoff hfail; omega
      have hexhausted := hnext.exhausted_iff
      push_cast at hexhausted
      rw [read_of_open hopen hread, length_invert]
      refine ⟨⟨?_, fun hpos ↦ ?_, ?_, fun hreached ↦ ?_, fun hfail hreached ↦ ?_,
        fun hbelow ↦ ?_⟩, hnext⟩
      all_goals simp only [length_invert] at *
      · exact h.invert_eq hfits ⟨_, hrest⟩
      · have := hchunk hpos
        omega
      · omega
      · have hrefused := h.exhausted_iff.mpr ⟨by omega, hreached.ge⟩
        exact absurd (hopen.symm.trans hrefused) Bool.false_ne_true
      · rw [if_pos (hexhausted.mpr ⟨hfail, hreached.ge⟩), h.err]
      · refine ⟨r.limit length, hbuffer, ?_, by rw [hread]⟩
        rw [hread, if_neg]
        rintro hreached
        have hlt := hbelow (hexhausted.mp hreached).1
        have hge := (hexhausted.mp hreached).2
        omega

/-! ## Runs -/

/-- After some reads, what they delivered is a prefix of the inverted source. -/
theorem reads_at (h : At wrapped options source position r) (hfits : source.length < 2 ^ 63)
    (lengths : List Nat) :
    delivered (r.reads wrapped lengths).1 =
        ((options.inverted source).drop position).take
          (delivered (r.reads wrapped lengths).1).length ∧
      (0 < options.maxChunk.toInt → ∀ result ∈ (r.reads wrapped lengths).1,
        result.bytes.length ≤ options.maxChunk.toInt) ∧
      At wrapped options source (position + (delivered (r.reads wrapped lengths).1).length)
        (r.reads wrapped lengths).2 := by
  induction lengths generalizing position r with
  | nil => exact ⟨rfl, fun _ _ hmem ↦ absurd hmem List.not_mem_nil, h⟩
  | cons length lengths ih =>
      obtain ⟨hfaithful, hnext⟩ := read_faithful h hfits length
      obtain ⟨hbytes, hchunks, hlast⟩ := ih hnext
      have hreads : r.reads wrapped (length :: lengths) =
          ((r.read wrapped length).1 :: ((r.read wrapped length).2.reads wrapped lengths).1,
            ((r.read wrapped length).2.reads wrapped lengths).2) := rfl
      have hdelivered : delivered (r.reads wrapped (length :: lengths)).1 =
          (r.read wrapped length).1.bytes ++
            delivered ((r.read wrapped length).2.reads wrapped lengths).1 := by
        rw [hreads, delivered, List.flatMap_cons]
        rfl
      refine ⟨?_, fun hpos result hresult ↦ ?_, ?_⟩
      · rw [hdelivered, List.length_append, List.take_add, List.drop_drop, ← hfaithful.bytes,
          ← hbytes]
      · rcases List.mem_cons.mp hresult with rfl | hresult
        · exact hfaithful.chunk hpos
        · exact hchunks hpos result hresult
      · rw [hdelivered, List.length_append, ← Nat.add_assoc]
        exact hlast

/-- For every source, every way the wrapped reader cuts it, all options and every
sequence of buffers: what is delivered is a prefix of the source with the bytes
at the listed offsets inverted, no longer than the cutoff, in pieces no larger
than a chunk; and every read, after whichever reads, returns the injected error
if with it the cutoff has been reached, and else the error of the wrapped
reader. -/
theorem faultReader_chunking_independent (wrapped : Reader σ Err) (s : σ)
    (options : FaultReaderOptions) (lengths : List Nat) (hfits : (wrapped.rest s).length < 2 ^ 63) :
    delivered ((newFaultReader s options).reads wrapped lengths).1 <+:
        options.inverted (wrapped.rest s) ∧
      (0 ≤ options.failAfter.toInt →
        (delivered ((newFaultReader s options).reads wrapped lengths).1).length ≤
          options.failAfter.toInt) ∧
      (0 < options.maxChunk.toInt →
        ∀ result ∈ ((newFaultReader s options).reads wrapped lengths).1,
          result.bytes.length ≤ options.maxChunk.toInt) ∧
      ∀ length, Faithful wrapped options (wrapped.rest s)
        (delivered ((newFaultReader s options).reads wrapped lengths).1).length length
        ((newFaultReader s options).reads wrapped lengths).2.reader
        (((newFaultReader s options).reads wrapped lengths).2.read wrapped length).1 := by
  obtain ⟨hbytes, hchunks, hat⟩ := reads_at (at_newFaultReader wrapped s options) hfits lengths
  rw [Nat.zero_add] at hat
  refine ⟨?_, hat.cutoff, hchunks, fun length ↦ (read_faithful hat hfits length).1⟩
  rw [hbytes, List.drop_zero]
  exact List.take_prefix _ _

/-- A reader that returns as much as it can, and at the end `io.EOF`. -/
def bytesReader : Reader Str Err where
  rest := id
  read s n := (⟨s.take n, if s = [] then some (.sentinel .eof) else none⟩, s.drop n)
  length_le s n := List.length_take_le n s
  rest_eq s n := List.take_append_drop n s

/-- Three reads of which the second reaches the cutoff. -/
theorem faultReader_cutoff :
    let options : FaultReaderOptions := { maxChunk := 1, failAfter := 2, corruptOffsets := [1, 1] }
    let run := (newFaultReader (.lit "abc") options).reads bytesReader [4, 4, 4]
    delivered run.1 = [0x61, 0x9d] ∧ run.1.map ReadResult.err =
        [none, some (.sentinel .unexpectedEOF), some (.sentinel .unexpectedEOF)] ∧
      delivered run.1 <+: options.inverted (bytesReader.rest (.lit "abc")) := by
  intro options run
  exact ⟨by decide +kernel, by decide +kernel,
    (faultReader_chunking_independent bytesReader (.lit "abc") options [4, 4, 4] (by decide)).1⟩

end GoFilesystem.Fstest
