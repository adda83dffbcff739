import GoFilesystem.Go.Slice
import GoFilesystem.Local.Adapter
import GoFilesystem.Memory.Adapter
import GoFilesystem.S3.Adapter
import GoFilesystem.Sftp.Adapter

/-!
# Ranges

`OpenRange` of each adapter as it is written, on a range of two `int64` with
arithmetic that wraps.

| adapter | how the end of the range is found |
|---|---|
| memory | clamped to the content, then a slice |
| local | an `io.LimitReader` behind a `Seek` |
| s3 | `inclusiveRangeEnd`, whose sum wraps before it is corrected |
| sftp | `validByteRange` guards against overflow |

They give one answer, `ByteRange64.of`, except that s3 and sftp reject a range whose last
byte has no `int64`.
-/

namespace GoFilesystem

open Go

/-- `ByteRange`, with the numbers of the machine. -/
structure ByteRange64 where
  offset : Int64
  length : Int64

namespace ByteRange64

variable (r : ByteRange64)

def toByteRange : ByteRange := ⟨r.offset.toInt, r.length.toInt⟩

/-- The range cannot be read from an object of any size. -/
def Malformed : Prop := r.offset < 0 ∨ r.length ≤ 0

instance : Decidable r.Malformed := inferInstanceAs (Decidable (_ ∨ _))

variable {r}

theorem malformed_iff : r.Malformed ↔ r.offset.toInt < 0 ∨ r.length.toInt ≤ 0 :=
  or_congr Int64.lt_iff_toInt_lt Int64.le_iff_toInt_le

theorem not_malformed_iff : ¬ r.Malformed ↔ 0 ≤ r.offset.toInt ∧ 0 < r.length.toInt := by
  rw [malformed_iff]
  omega

/-- The number of the last byte of the range fits in an `int64`. -/
def Fits (r : ByteRange64) : Prop :=
  -2 ^ 63 ≤ r.offset.toInt + r.length.toInt - 1 ∧ r.offset.toInt + r.length.toInt - 1 < 2 ^ 63

/-- What a range of a content is; `none` is `ErrInvalidRange`. -/
def of (r : ByteRange64) (content : Str) : Option Str :=
  if r.offset.toInt < 0 ∨ r.length.toInt ≤ 0 ∨ content.length ≤ r.offset.toInt then none
  else some ((content.drop r.offset.toInt.toNat).take
    (min r.length.toInt (content.length - r.offset.toInt)).toNat)

variable {content : Str}

theorem of_eq_none (h : r.Malformed) : r.of content = none := by
  rw [malformed_iff] at h
  exact if_pos (h.imp_right Or.inl)

theorem of_eq_none_of_le (h : content.length ≤ r.offset.toInt) : r.of content = none :=
  if_pos (.inr (.inr h))

theorem of_eq_some (hr : ¬ r.Malformed) (h : r.offset.toInt < content.length) :
    r.of content = some ((content.drop r.offset.toInt.toNat).take
      (min r.length.toInt (content.length - r.offset.toInt)).toNat) := by
  obtain ⟨hoffset, hlength⟩ := not_malformed_iff.mp hr
  exact if_neg (by omega)

/-- The comparison with the size of an object. -/
theorem ge_ofNat_iff {size : Nat} (hsize : size < 2 ^ 63) :
    r.offset ≥ Int64.ofNat size ↔ size ≤ r.offset.toInt := by
  rw [ge_iff_le, Int64.le_iff_toInt_le, Int64.toInt_ofNat_of_lt hsize]

def invalid (r : ByteRange64) : Err :=
  .wrap "%w: offset=%d length=%d"
    [.lit (toString r.offset.toInt), .lit (toString r.length.toInt)] (.sentinel .invalidRange)

/-- The error of a range that starts at the end of an object, or past it. -/
def pastEnd (r : ByteRange64) (size : Nat) : Err :=
  .wrap "%w: offset=%d size=%d"
    [.lit (toString r.offset.toInt), .lit (toString size)] (.sentinel .invalidRange)

end ByteRange64

/-- What reading a range gave is what was asked for, or an `ErrInvalidRange`. -/
def Yields : Except Err Str → Option Str → Prop
  | .ok data, some expected => data = expected
  | .error err, none => err.is .invalidRange
  | _, _ => False

/-! ## Memory -/

namespace Memory

open Method

variable {r : ByteRange64} {stored : Object}

/-- `OpenRange` of a stored object, once the range is known to be well formed;
`none` is a panic. -/
def rangeOf64 (r : ByteRange64) (stored : Object) : Option (Stream × Option Err) :=
  let content := stored.content
  let size := Int64.ofNat content.length
  if r.offset ≥ size then some ({}, some (r.pastEnd content.length))
  else
    let available := size - r.offset
    let stop := r.offset + min r.length available
    (slice content r.offset.toInt stop.toInt).map fun data ↦ (bytesReader data, none)

/-- `OpenRange`, on numbers of the machine. -/
def openRange64 (path : Path) (r : ByteRange64) : Method Objects (Stream × Option Err) :=
  if r.Malformed then return ({}, some r.invalid)
  else do
    match ← ctxErr with
    | some err => return ({}, some err)
    | none =>
      match (← load).lookup path.value with
      | none => return ({}, some (notFound path))
      | some stored =>
        match rangeOf64 r stored with
        | none => Call.panic
        | some result => return result

/-- Reading to its end what `OpenRange` returned, if it is a stream. -/
def outcome (stream : Stream) (err : Option Err) : Except Err Str :=
  match err with
  | some err => .error err
  | none => stream.source.copy

/-- No number wraps, and the slice is within its bounds. -/
theorem rangeOf64_eq_some (hsize : stored.content.length < 2 ^ 63) (hr : ¬ r.Malformed) :
    rangeOf64 r stored = some (match r.of stored.content with
      | none => ({}, some (r.pastEnd stored.content.length))
      | some data => (bytesReader data, none)) := by
  obtain ⟨hoffset, hlength⟩ := ByteRange64.not_malformed_iff.mp hr
  unfold rangeOf64
  dsimp only
  by_cases h : r.offset ≥ Int64.ofNat stored.content.length
  · rw [if_pos h, ByteRange64.of_eq_none_of_le ((ByteRange64.ge_ofNat_iff hsize).mp h)]
  · have hlt : r.offset.toInt < stored.content.length :=
      not_le.mp (fun h' ↦ h ((ByteRange64.ge_ofNat_iff hsize).mpr h'))
    have havailable : (Int64.ofNat stored.content.length - r.offset).toInt =
        stored.content.length - r.offset.toInt := by
      have hlen := Int64.toInt_ofNat_of_lt hsize
      rw [toInt_sub_of_fits, hlen] <;> omega
    have hmin : (min r.length (Int64.ofNat stored.content.length - r.offset)).toInt =
        min r.length.toInt (stored.content.length - r.offset.toInt) := by
      rw [toInt_min, havailable]
    have hstop : (r.offset + min r.length (Int64.ofNat stored.content.length - r.offset)).toInt =
        r.offset.toInt + min r.length.toInt (stored.content.length - r.offset.toInt) := by
      rw [toInt_add_of_fits, hmin] <;> rw [hmin] <;> omega
    rw [if_neg h, slice_eq_some hoffset (by omega) (by omega), hstop, add_sub_cancel_left,
      Option.map_some, ByteRange64.of_eq_some hr hlt]

/-- With exact numbers it is the same function. -/
theorem rangeOf64_eq (hsize : stored.content.length < 2 ^ 63) (hr : ¬ r.Malformed) :
    rangeOf64 r stored = some (rangeOf r.toByteRange stored) := by
  obtain ⟨hoffset, hlength⟩ := ByteRange64.not_malformed_iff.mp hr
  rw [rangeOf64_eq_some hsize hr]
  rcases le_or_gt (stored.content.length : Int) r.offset.toInt with hle | hlt
  · rw [ByteRange64.of_eq_none_of_le hle]
    exact congrArg some (if_pos hle).symm
  · have hstop : (r.offset.toInt + min r.length.toInt
        (stored.content.length - r.offset.toInt)).toNat - r.offset.toInt.toNat =
          (min r.length.toInt (stored.content.length - r.offset.toInt)).toNat := by omega
    rw [ByteRange64.of_eq_some hr hlt]
    refine congrArg some ((if_neg (not_le.mpr hlt)).trans ?_).symm
    dsimp only [ByteRange64.toByteRange]
    rw [List.drop_take, hstop]

theorem rangeOf64_eq_ab :
    let stored : Object := ⟨.lit "ab", none, [], .visibilityPrivate, 0⟩
    let r : ByteRange64 := ⟨1, Int64.maxValue⟩
    ¬ r.Malformed ∧ rangeOf64 r stored = some (rangeOf r.toByteRange stored) := by
  intro stored r
  have hr : ¬ r.Malformed := by decide
  exact ⟨hr, rangeOf64_eq (by decide) hr⟩

/-- `OpenRange` of an object, under a context that is live. -/
theorem openRange64_spec {path : Path} {env : Env} {frame : Frame Objects}
    (hctx : env.ctx frame.polls = none) (hstored : frame.store.lookup path.value = some stored)
    (hsize : stored.content.length < 2 ^ 63) :
    ∃ stream err frame', openRange64 path r env frame = some ((stream, err), frame') ∧
      frame'.store = frame.store ∧
      Yields (outcome stream err) (r.of stored.content) := by
  unfold openRange64
  by_cases hr : r.Malformed
  · rw [if_pos hr, ByteRange64.of_eq_none hr]
    exact ⟨{}, some r.invalid, frame, rfl, rfl, rfl⟩
  · rw [if_neg hr, Call.bind_apply, ctxErr_apply, hctx]
    dsimp only [Option.map_none, Option.bind_some]
    rw [Call.bind_apply, load_apply, Option.bind_some]
    dsimp only
    rw [hstored]
    dsimp only
    rw [rangeOf64_eq_some hsize hr]
    refine ⟨_, _, _, rfl, rfl, ?_⟩
    cases r.of stored.content <;> rfl

end Memory

/-! ## Local -/

namespace Local

/-- A file that `Open` returned, and the errors of its calls. -/
structure OpenedFile where
  content : Str
  statErr : Option Err := none
  seekErr : Option Err := none

/-- `OpenRange`, given what `Open` returns. -/
def openRange (opened : Except Err OpenedFile) (r : ByteRange64) : Except Err LimitedReader :=
  if r.Malformed then .error r.invalid
  else
    match opened with
    | .error err => .error err
    | .ok file =>
      match file.statErr with
      | some err => .error err
      | none =>
        let size := Int64.ofNat file.content.length
        if r.offset ≥ size then .error (r.pastEnd file.content.length)
        else
          match file.seekErr with
          | some err => .error err
          | none => .ok ⟨file.content.drop r.offset.toInt.toNat, r.length⟩

/-- Reading to its end the range that `OpenRange` opened, if it did. -/
def RangeReads (content : Str) (r : ByteRange64) : Except Err Str → Prop
  | .error err => openRange (.ok ⟨content, none, none⟩) r = .error err
  | .ok data => ∃ reader, openRange (.ok ⟨content, none, none⟩) r = .ok reader ∧ reader.Reads data

/-- The limit takes the place of clamping. -/
theorem rangeReads_yields {content : Str} (r : ByteRange64) (hsize : content.length < 2 ^ 63) :
    (∃ outcome, RangeReads content r outcome) ∧
      ∀ outcome, RangeReads content r outcome → Yields outcome (r.of content) := by
  have hfails : ∀ err : Err, openRange (.ok ⟨content, none, none⟩) r = .error err →
      err.is .invalidRange = true → r.of content = none →
        (∃ outcome, RangeReads content r outcome) ∧
          ∀ outcome, RangeReads content r outcome → Yields outcome (r.of content) := by
    intro err hopen herr hnone
    refine ⟨⟨.error err, hopen⟩, ?_⟩
    rintro (err' | data) h
    · rw [hnone, ← Except.error.inj (hopen.symm.trans h)]
      exact herr
    · obtain ⟨reader, hreader, _⟩ := h
      cases hopen.symm.trans hreader
  by_cases hr : r.Malformed
  · exact hfails r.invalid (if_pos hr) rfl (ByteRange64.of_eq_none hr)
  · have hopen : openRange (.ok ⟨content, none, none⟩) r =
        if r.offset ≥ Int64.ofNat content.length then .error (r.pastEnd content.length)
        else .ok ⟨content.drop r.offset.toInt.toNat, r.length⟩ := if_neg hr
    by_cases h : r.offset ≥ Int64.ofNat content.length
    · exact hfails _ (hopen.trans (if_pos h)) rfl
        (ByteRange64.of_eq_none_of_le ((ByteRange64.ge_ofNat_iff hsize).mp h))
    · obtain ⟨hoffset, hlength⟩ := ByteRange64.not_malformed_iff.mp hr
      have hlt : r.offset.toInt < content.length :=
        not_le.mp (fun h' ↦ h ((ByteRange64.ge_ofNat_iff hsize).mpr h'))
      have hreader := hopen.trans (if_neg h)
      refine ⟨⟨.ok _, _, hreader, LimitedReader.reads_take _⟩, ?_⟩
      rintro (err | data) hreads
      · cases hreader.symm.trans hreads
      · obtain ⟨reader, hreader', hdata⟩ := hreads
        cases hreader.symm.trans hreader'
        rw [ByteRange64.of_eq_some hr hlt]
        refine hdata.eq.trans ?_
        dsimp only
        rw [List.take_eq_take_min, List.length_drop]
        congr 1
        omega

end Local

/-! ## S3 and SFTP -/

namespace ByteRange64

variable {r : ByteRange64}

/-- `int64(^uint64(0) >> 1)`. -/
def maximum : Int64 := (~~~(0 : UInt64) >>> 1).toInt64

/-- The guard that both adapters have; its two differences do not wrap. -/
theorem guard_iff (hr : ¬ r.Malformed) : r.length - 1 ≤ maximum - r.offset ↔ r.Fits := by
  obtain ⟨hoffset, hlength⟩ := not_malformed_iff.mp hr
  have hone : (1 : Int64).toInt = 1 := rfl
  have hmaximum : maximum.toInt = 2 ^ 63 - 1 := by decide
  have hlt := r.length.toInt_lt
  have hlt' := r.offset.toInt_lt
  have hlast : (r.length - 1).toInt = r.length.toInt - 1 := by
    rw [toInt_sub_of_fits, hone] <;> omega
  have hroom : (maximum - r.offset).toInt = 2 ^ 63 - 1 - r.offset.toInt := by
    rw [toInt_sub_of_fits, hmaximum] <;> omega
  rw [Int64.le_iff_toInt_le, hlast, hroom]
  unfold Fits
  omega

/-- The intermediate sum may wrap, and then the subtraction wraps back. -/
theorem toInt_last (h : r.Fits) :
    (r.offset + r.length - 1).toInt = r.offset.toInt + r.length.toInt - 1 := by
  have hone : (1 : Int64).toInt = 1 := rfl
  rw [Int64.toInt_sub, Int64.toInt_add, hone, Int.bmod_sub_bmod]
  obtain ⟨hlow, hhigh⟩ := h
  exact Int.bmod_eq_of_le (by omega) (by omega)

end ByteRange64

namespace S3

variable {σ : Type} {r : ByteRange64}

/-- `GetObjectInput`, with the two numbers of its range `bytes=first-last`. -/
structure GetObjectInput where
  bucket : Str
  key : Str
  first : Int64
  last : Int64

/-- What a service answers to `GetObject`, from a state of its own. -/
abbrev GetObject (σ : Type) := σ → GetObjectInput → Except ServiceError Str × σ

/-- `inclusiveRangeEnd`; `none` where the source returns false. -/
def inclusiveRangeEnd (r : ByteRange64) : Option Int64 :=
  if r.Malformed then none
  else if r.length - 1 > ByteRange64.maximum - r.offset then none
  else some (r.offset + r.length - 1)

/-- `OpenRange`, and the state of the service after it. -/
def openRange (a : Adapter) (serve : GetObject σ) (logicalPath : Path) (r : ByteRange64)
    (service : σ) : Except Err Str × σ :=
  match inclusiveRangeEnd r with
  | none => (.error r.invalid, service)
  | some last =>
    match serve service ⟨a.bucket, a.key logicalPath, r.offset, last⟩ with
    | (.error failure, service) => (.error (mapError logicalPath failure), service)
    | (.ok body, service) => (.ok body, service)

/-- The service holds an object and serves the range it is asked for: clamped to
the object, or as an invalid one if it starts at the end or past it. -/
structure ServesRanges (serve : GetObject σ) (bucket key content : Str) : Prop where
  clamped : ∀ service (first last : Int64), 0 ≤ first.toInt → first.toInt ≤ last.toInt →
    first.toInt < content.length → (serve service ⟨bucket, key, first, last⟩).1 =
      .ok ((content.take (last.toInt + 1).toNat).drop first.toInt.toNat)
  invalid : ∀ service (first last : Int64), content.length ≤ first.toInt → ∃ err,
    (serve service ⟨bucket, key, first, last⟩).1 = .error ⟨err, some (.lit "InvalidRange")⟩ ∧
      err.is .canceled = false ∧ err.is .deadlineExceeded = false

theorem inclusiveRangeEnd_eq_none (h : r.Malformed ∨ ¬ r.Fits) : inclusiveRangeEnd r = none := by
  unfold inclusiveRangeEnd
  by_cases hr : r.Malformed
  · exact if_pos hr
  · have hfits := h.resolve_left hr
    rw [if_neg hr, if_pos]
    exact Int64.not_le.mp (mt (ByteRange64.guard_iff hr).mp hfits)

theorem inclusiveRangeEnd_eq_some (hr : ¬ r.Malformed) (h : r.Fits) :
    inclusiveRangeEnd r = some (r.offset + r.length - 1) := by
  unfold inclusiveRangeEnd
  rw [if_neg hr, if_neg]
  exact Int64.not_lt.mpr ((ByteRange64.guard_iff hr).mpr h)

/-- A range that is rejected costs no request. -/
theorem openRange_rejects (a : Adapter) (serve : GetObject σ) (path : Path) (service : σ)
    (h : r.Malformed ∨ ¬ r.Fits) :
    openRange a serve path r service = (.error r.invalid, service) := by
  unfold openRange
  rw [inclusiveRangeEnd_eq_none h]

/-- A range with a last byte is asked for. -/
theorem openRange_yields {a : Adapter} {serve : GetObject σ} {path : Path} {content : Str}
    (hserve : ServesRanges serve a.bucket (a.key path) content) (h : r.Fits) (service : σ) :
    Yields (openRange a serve path r service).1 (r.of content) := by
  by_cases hr : r.Malformed
  · rw [openRange_rejects a serve path service (.inl hr), ByteRange64.of_eq_none hr]
    rfl
  · obtain ⟨hoffset, hlength⟩ := ByteRange64.not_malformed_iff.mp hr
    have hlast := ByteRange64.toInt_last h
    unfold openRange
    rw [inclusiveRangeEnd_eq_some hr h]
    dsimp only
    rcases le_or_gt (content.length : Int) r.offset.toInt with hle | hlt
    · obtain ⟨err, hanswer, hcanceled, hdeadline⟩ :=
        hserve.invalid service r.offset (r.offset + r.length - 1) hle
      rw [ByteRange64.of_eq_none_of_le hle]
      split
      · next failure _ heq =>
          rw [heq] at hanswer
          cases hanswer
          unfold mapError
          dsimp only
          rw [hcanceled, hdeadline]
          rfl
      · next heq =>
          rw [heq] at hanswer
          cases hanswer
    · have hanswer := hserve.clamped service r.offset (r.offset + r.length - 1) hoffset
        (by omega) hlt
      rw [ByteRange64.of_eq_some hr hlt]
      split
      · next heq =>
          rw [heq] at hanswer
          cases hanswer
      · next body _ heq =>
          rw [heq] at hanswer
          refine (Except.ok.inj hanswer).trans ?_
          rw [List.drop_take, hlast, List.take_eq_take_min, List.length_drop]
          congr 1
          omega

end S3

/-- `validByteRange`, on numbers of the machine. -/
def Sftp.validByteRange64 (r : ByteRange64) : Bool :=
  if r.Malformed then false else r.length - 1 ≤ ByteRange64.maximum - r.offset

/-- With exact numbers it is the same function. -/
theorem Sftp.validByteRange64_eq (r : ByteRange64) :
    Sftp.validByteRange64 r = Sftp.validByteRange r.toByteRange := by
  have hlt := r.length.toInt_lt
  unfold Sftp.validByteRange64 Sftp.validByteRange
  by_cases hr : r.Malformed
  · rw [if_pos hr, if_pos]
    exact (Bool.or_eq_true _ _).mpr
      ((ByteRange64.malformed_iff.mp hr).imp (decide_eq_true ·) (decide_eq_true ·))
  · obtain ⟨hoffset, hlength⟩ := ByteRange64.not_malformed_iff.mp hr
    rw [if_neg hr, if_neg]
    · refine decide_eq_decide.mpr ((ByteRange64.guard_iff hr).trans ?_)
      unfold ByteRange64.Fits ByteRange64.toByteRange
      dsimp only
      omega
    · rw [Bool.or_eq_true, decide_eq_true_eq, decide_eq_true_eq]
      exact mt ByteRange64.malformed_iff.mpr hr

theorem Sftp.validByteRange64_iff (r : ByteRange64) :
    Sftp.validByteRange64 r = true ↔ (S3.inclusiveRangeEnd r).isSome := by
  unfold Sftp.validByteRange64
  by_cases hr : r.Malformed
  · rw [if_pos hr, S3.inclusiveRangeEnd_eq_none (.inl hr)]
    rfl
  · rw [if_neg hr, decide_eq_true_eq, ByteRange64.guard_iff hr]
    by_cases h : r.Fits
    · rw [S3.inclusiveRangeEnd_eq_some hr h]
      exact iff_of_true h rfl
    · rw [S3.inclusiveRangeEnd_eq_none (.inr h)]
      exact iff_of_false h Bool.false_ne_true

/-- Range reads agree.  An object holds `content`: -/
theorem ranges_agree (content : Str) (hsize : content.length < 2 ^ 63) (r : ByteRange64) :
    -- in memory, whatever else is stored,
    (∀ (env : Env) (frame : Frame Memory.Objects) (path : Path) (stored : Memory.Object),
      env.ctx frame.polls = none → frame.store.lookup path.value = some stored →
      stored.content = content →
        ∃ stream err frame', Memory.openRange64 path r env frame = some ((stream, err), frame') ∧
          Yields (Memory.outcome stream err) (r.of content)) ∧
    -- in a local file, however it is read,
    ((∃ outcome, Local.RangeReads content r outcome) ∧
      ∀ outcome, Local.RangeReads content r outcome → Yields outcome (r.of content)) ∧
    -- at a service, if the last byte has a number,
    (∀ (σ : Type) (a : S3.Adapter) (serve : S3.GetObject σ) (path : Path) (service : σ),
      (r.Fits → S3.ServesRanges serve a.bucket (a.key path) content →
        Yields (S3.openRange a serve path r service).1 (r.of content)) ∧
      (¬ r.Fits → ∃ err, S3.openRange a serve path r service = (.error err, service) ∧
        err.is .invalidRange = true)) ∧
    -- and sftp accepts the ranges that s3 accepts.
    (Sftp.validByteRange64 r = true ↔ (S3.inclusiveRangeEnd r).isSome) := by
  refine ⟨?_, Local.rangeReads_yields r hsize, ?_, Sftp.validByteRange64_iff r⟩
  · rintro env frame path stored hctx hstored rfl
    obtain ⟨stream, err, frame', hopen, _, hyields⟩ :=
      Memory.openRange64_spec (r := r) hctx hstored hsize
    exact ⟨stream, err, frame', hopen, hyields⟩
  · intro σ a serve path service
    refine ⟨fun hfits hserve ↦ S3.openRange_yields hserve hfits service, fun hfits ↦ ?_⟩
    exact ⟨r.invalid, S3.openRange_rejects a serve path service (.inr hfits), rfl⟩

/-- A service that holds one object, and counts its requests. -/
def S3.holding (content : Str) : S3.GetObject Nat := fun count input ↦
  if input.first.toInt < content.length then
    (.ok ((content.take (input.last.toInt + 1).toNat).drop input.first.toInt.toNat), count + 1)
  else (.error ⟨.new "InvalidRange" [], some (.lit "InvalidRange")⟩, count + 1)

theorem S3.servesRanges_holding (bucket key content : Str) :
    S3.ServesRanges (S3.holding content) bucket key content where
  clamped _ _ _ _ _ h := congrArg Prod.fst (if_pos h)
  invalid _ _ _ h := ⟨_, congrArg Prod.fst (if_neg (not_lt.mpr h)), rfl, rfl⟩

/-- The largest range that starts at the second byte of three: the sum of the two
numbers wraps. -/
theorem ranges_agree_three :
    let content := Str.lit "abc"
    let r : ByteRange64 := ⟨1, Int64.maxValue⟩
    let stored : Memory.Object := ⟨content, none, [], .visibilityPrivate, 0⟩
    let a : S3.Adapter := { bucket := .lit "bucket" }
    (∀ env : Env, env.ctx 0 = none → ∃ stream err frame',
      Memory.openRange64 .root r env { store := Memory.new.insert [] stored } =
          some ((stream, err), frame') ∧
        Yields (Memory.outcome stream err) (some (.lit "bc"))) ∧
      Yields (S3.openRange a (S3.holding content) .root r 0).1 (some (.lit "bc")) := by
  intro content r stored a
  obtain ⟨hmemory, _, hs3, _⟩ := ranges_agree content (by decide) r
  refine ⟨fun env hctx ↦ ?_, ?_⟩
  · exact hmemory env { store := Memory.new.insert [] stored } .root stored hctx
      (Finmap.lookup_insert _) rfl
  · have hfits : r.Fits := by
      unfold ByteRange64.Fits
      decide
    exact (hs3 Nat a (S3.holding content) .root 0).1 hfits (S3.servesRanges_holding _ _ _)

end GoFilesystem
