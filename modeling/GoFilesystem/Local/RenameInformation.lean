import GoFilesystem.Go.Binary
import GoFilesystem.Go.Slice

/-!
# The rename record of Windows

`local/rename_information.go`: the record that the local adapter hands to
`NtSetInformationFile` when it moves a file on Windows.  A record holds a flag, the
handle of a directory, the length of a name in bytes, and the name in UTF-16:

| offset | width | content |
|---|---|---|
| `0` | `pointerBytes` | the flag `ReplaceIfExists`, padded |
| `pointerBytes` | `pointerBytes` | the handle |
| `2 * pointerBytes` | `4` | the length of the name in bytes |
| `2 * pointerBytes + 4` | 260 units | the name and its terminator |

and is padded to a multiple of `pointerBytes`.

An index out of bounds is a panic, which is `none` here; the nil that the source
returns for what it refuses is `some none`.
-/

namespace GoFilesystem.Local.Rename

open Go

/-- `windowsRenameFilenameCapacity`. -/
def windowsRenameFilenameCapacity : Int64 := 260

/-- The loop over the units of the name, from an index on. -/
def putUnits (filenameOffset : Int64) : Nat → List UInt16 → Str → Option Str
  | _, [], information => some information
  | index, unit :: filename, information => do
    let offset := filenameOffset + 2 * Int64.ofNat index
    let information ← put 2 information offset.toInt information.length unit.toNat
    putUnits filenameOffset (index + 1) filename information

/-- What `marshalWindowsRenameInformation` writes, once it has accepted its
arguments: the handle with `width` bytes, the length, and the name. -/
def fill (pointerBytes : Int64) (width handle filenameLength : Nat) (filename : List UInt16) :
    Option Str := do
  let lengthOffset := 2 * pointerBytes
  let filenameOffset := lengthOffset + 4
  let size := filenameOffset + 2 * windowsRenameFilenameCapacity
  let size := (size + pointerBytes - 1) &&& ~~~(pointerBytes - 1)
  let information := List.replicate size.toInt.toNat (0 : UInt8)
  let information ← put width information pointerBytes.toInt lengthOffset.toInt handle
  let information ← put 4 information lengthOffset.toInt filenameOffset.toInt
    (UInt32.ofNat filenameLength * 2).toNat
  putUnits filenameOffset 0 filename information

/-- `marshalWindowsRenameInformation`. -/
def marshalWindowsRenameInformation (pointerBytes : Int64) (directory : UInt64)
    (filename : List UInt16) : Option (Option Str) :=
  if pointerBytes ≠ 4 ∧ pointerBytes ≠ 8 then return none
  else
    let filenameLength : Int := filename.length - 1
    if filenameLength < 0 ∨ windowsRenameFilenameCapacity.toInt ≤ filenameLength then return none
    else do
      let last ← filename[filenameLength.toNat]?
      if last ≠ 0 then return none
      else if pointerBytes = 4 then
        if 0xffffffff < directory then return none
        else some <$> fill pointerBytes 4 directory.toUInt32.toNat filenameLength.toNat filename
      else some <$> fill pointerBytes 8 directory.toNat filenameLength.toNat filename

/-! ## The record -/

def unitBytes (units : List UInt16) : Str := units.flatMap fun unit ↦ leBytes 2 unit.toNat

def unitsOf : Str → List UInt16
  | low :: high :: s => UInt16.ofNat (leNat [low, high]) :: unitsOf s
  | _ => []

theorem length_unitBytes (units : List UInt16) : (unitBytes units).length = 2 * units.length := by
  induction units with
  | nil => rfl
  | cons unit units ih =>
      rw [unitBytes, List.flatMap_cons, List.length_append, ← unitBytes, ih, length_leBytes,
        List.length_cons]
      omega

theorem unitsOf_unitBytes (units : List UInt16) : unitsOf (unitBytes units) = units := by
  induction units with
  | nil => rfl
  | cons unit units ih =>
      have hunit : leNat (leBytes 2 unit.toNat) = unit.toNat := leNat_leBytes unit.toNat_lt
      rw [unitBytes, List.flatMap_cons, ← unitBytes]
      change UInt16.ofNat (leNat (leBytes 2 unit.toNat)) :: unitsOf (unitBytes units) = _
      rw [hunit, ih, UInt16.ofNat_toNat]

/-- The record of a handle and a name, with its padding. -/
def record (pointerBytes : Nat) (directory : UInt64) (name : List UInt16) (padding : Nat) : Str :=
  List.replicate pointerBytes 0 ++ leBytes pointerBytes directory.toNat ++
    leBytes 4 (2 * name.length) ++ unitBytes name ++ List.replicate padding 0

variable {filename : List UInt16}

/-- The units go one after another where there is room for them. -/
theorem putUnits_append {filenameOffset : Int64} {index : Nat} {before old after : Str}
    (hold : old.length = 2 * filename.length)
    (hoffset : filenameOffset.toInt + 2 * index = before.length)
    (hnonneg : 0 ≤ filenameOffset.toInt) (hfits : (before ++ old ++ after).length < 2 ^ 63) :
    putUnits filenameOffset index filename (before ++ old ++ after) =
      some (before ++ unitBytes filename ++ after) := by
  induction filename generalizing index before old with
  | nil =>
      obtain rfl : old = [] := List.length_eq_zero_iff.mp hold
      rfl
  | cons unit filename ih =>
      rw [List.length_cons] at hold
      have hlength : before.length + old.length + after.length < 2 ^ 63 := by
        simpa only [List.length_append] using hfits
      have hindex : (Int64.ofNat index).toInt = index := Int64.toInt_ofNat_of_lt (by omega)
      have hdouble : (2 * Int64.ofNat index).toInt = 2 * index := by
        have htwo : (2 : Int64).toInt = 2 := rfl
        rw [Int64.toInt_mul, hindex, htwo]
        exact Int.bmod_eq_of_le (by omega) (by omega)
      have hlow : (filenameOffset + 2 * Int64.ofNat index).toInt = before.length := by
        rw [toInt_add_of_fits (by omega) (by omega), hdouble, hoffset]
      have htake : (old.take 2).length = 2 := by
        rw [List.length_take]
        omega
      have hbuffer : before ++ old ++ after = before ++ old.take 2 ++ (old.drop 2 ++ after) := by
        simp only [← List.append_assoc]
        rw [List.append_assoc before (old.take 2), List.take_append_drop]
      have hnext : ((before ++ leBytes 2 unit.toNat) ++ old.drop 2 ++ after).length < 2 ^ 63 := by
        simp only [List.length_append, length_leBytes, List.length_drop]
        omega
      have hrest : filenameOffset.toInt + 2 * (index + 1 : Nat) =
          (before ++ leBytes 2 unit.toNat).length := by
        rw [List.length_append, length_leBytes]
        push_cast
        omega
      have hwidth : (filenameOffset + 2 * Int64.ofNat index).toInt + (2 : Nat) ≤
          (before ++ old.take 2 ++ (old.drop 2 ++ after)).length := by
        rw [hlow, ← hbuffer]
        simp only [List.length_append]
        omega
      rw [putUnits, hbuffer, put_append unit.toNat htake hlow hwidth le_rfl, Option.bind_eq_bind,
        Option.bind_some, ← List.append_assoc,
        ih (by rw [List.length_drop]; omega) hrest hnext, unitBytes, unitBytes, List.flatMap_cons]
      simp only [List.append_assoc]

variable {pointerBytes : Int64}

/-- The buffer of zeros becomes the record. -/
theorem fill_eq {directory : UInt64} {name : List UInt16} (p size : Nat)
    (hpointer : pointerBytes.toInt = p) (hlength : (2 * pointerBytes).toInt = 2 * p)
    (hfilename : (2 * pointerBytes + 4).toInt = 2 * p + 4)
    (hsize : ((2 * pointerBytes + 4 + 2 * windowsRenameFilenameCapacity + pointerBytes - 1) &&&
      ~~~(pointerBytes - 1)).toInt.toNat = size) (hroom : 2 * p + 4 + 2 * (name.length + 1) ≤ size)
    (hbound : size < 2 ^ 31) :
    fill pointerBytes p directory.toNat name.length (name ++ [0]) =
      some (record p directory name (size - (2 * p + 4 + 2 * name.length))) := by
  obtain ⟨rest, rfl⟩ : ∃ rest, size = p + (p + (4 + (2 * (name.length + 1) + rest))) :=
    ⟨size - (2 * p + 4 + 2 * (name.length + 1)), by omega⟩
  have hzeros : List.replicate (p + (p + (4 + (2 * (name.length + 1) + rest)))) (0 : UInt8) =
      List.replicate p 0 ++ List.replicate p 0 ++ (List.replicate 4 0 ++
        (List.replicate (2 * (name.length + 1)) 0 ++ List.replicate rest 0)) := by
    simp only [List.replicate_add, List.append_assoc]
  have hbytes : (UInt32.ofNat name.length * 2).toNat = 2 * name.length := by
    rw [UInt32.toNat_mul, UInt32.toNat_ofNat']
    change name.length % 2 ^ 32 * 2 % 2 ^ 32 = _
    omega
  have hpadding : p + (p + (4 + (2 * (name.length + 1) + rest))) - (2 * p + 4 + 2 * name.length) =
      2 + rest := by omega
  unfold fill
  dsimp only
  rw [hsize, hzeros, hpointer, hlength, hfilename, hbytes]
  rw [put_append directory.toNat List.length_replicate (by simp) (by omega) (by simp; omega),
    Option.bind_eq_bind, Option.bind_some, ← List.append_assoc]
  rw [put_append (2 * name.length) List.length_replicate (by simp; omega) (by omega)
      (by simp; omega), Option.bind_some, ← List.append_assoc]
  rw [putUnits_append (by simp) (by simp [hfilename]; omega) (by omega) (by simp; omega), hpadding]
  simp [record, unitBytes, leBytes, List.replicate_add, List.replicate_succ]

/-! ## What is accepted -/

/-- The arguments that make a record: a width of Windows, a handle that fits it,
and a name with its terminator that fits the record. -/
structure Accepted (pointerBytes : Int64) (directory : UInt64) (filename : List UInt16) : Prop where
  width : pointerBytes = 4 ∨ pointerBytes = 8
  handle : directory.toNat < 256 ^ pointerBytes.toInt.toNat
  nonempty : filename ≠ []
  capacity : filename.length ≤ 260
  terminated : filename.getLast? = some 0

def recordSize (pointerBytes : Int64) : Nat := if pointerBytes = 4 then 532 else 544

theorem marshal_of_accepted {directory : UInt64} {name : List UInt16}
    (h : Accepted pointerBytes directory (name ++ [0])) :
    marshalWindowsRenameInformation pointerBytes directory (name ++ [0]) =
      some (some (record pointerBytes.toInt.toNat directory name
        (recordSize pointerBytes - (2 * pointerBytes.toInt.toNat + 4 + 2 * name.length)))) := by
  have hcapacity := h.capacity
  rw [List.length_append, List.length_singleton] at hcapacity
  have hlength : (((name ++ [0]).length : Int) - 1).toNat = name.length := by simp
  have hlast : (name ++ [(0 : UInt16)])[name.length]? = some 0 := by simp
  have hinside : ¬((((name ++ [(0 : UInt16)]).length : Int) - 1 < 0) ∨
      windowsRenameFilenameCapacity.toInt ≤ ((name ++ [(0 : UInt16)]).length : Int) - 1) := by
    have hcap : windowsRenameFilenameCapacity.toInt = 260 := rfl
    rw [hcap, List.length_append, List.length_singleton]
    omega
  unfold marshalWindowsRenameInformation
  dsimp only
  have hhandle := h.handle
  rcases h.width with rfl | rfl
  · have hfits : directory.toNat < 2 ^ 32 := hhandle
    have hsmall : ¬0xffffffff < directory := by
      rw [UInt64.lt_iff_toNat_lt]
      change ¬0xffffffff < directory.toNat
      omega
    have hdirectory : directory.toUInt32.toNat = directory.toNat := by
      rw [UInt64.toNat_toUInt32]
      exact Nat.mod_eq_of_lt hfits
    rw [if_neg (by decide), if_neg hinside, hlength, hlast, Option.bind_eq_bind, Option.bind_some,
      if_neg (by decide), if_pos rfl, if_neg hsmall, hdirectory,
      fill_eq 4 532 rfl rfl rfl rfl (by omega) (by decide)]
    rfl
  · rw [if_neg (by decide), if_neg hinside, hlength, hlast, Option.bind_eq_bind, Option.bind_some,
      if_neg (by decide), if_neg (by decide),
      fill_eq 8 544 rfl rfl rfl rfl (by omega) (by decide)]
    rfl

/-- Everything else is refused, without a look outside the name. -/
theorem marshal_of_not_accepted {directory : UInt64}
    (h : ¬Accepted pointerBytes directory filename) :
    marshalWindowsRenameInformation pointerBytes directory filename = some none := by
  unfold marshalWindowsRenameInformation
  by_cases hwidth : pointerBytes ≠ 4 ∧ pointerBytes ≠ 8
  · rw [if_pos hwidth]
    rfl
  rw [if_neg hwidth]
  dsimp only
  by_cases hinside : (filename.length : Int) - 1 < 0 ∨
      windowsRenameFilenameCapacity.toInt ≤ (filename.length : Int) - 1
  · rw [if_pos hinside]
    rfl
  have hcap : windowsRenameFilenameCapacity.toInt = 260 := rfl
  rw [hcap] at hinside
  obtain ⟨name, last, rfl⟩ : ∃ name last, filename = name ++ [last] :=
    ⟨_, _, (List.dropLast_append_getLast (List.ne_nil_of_length_pos (by omega))).symm⟩
  have hlength : (((name ++ [last]).length : Int) - 1).toNat = name.length := by simp
  have hlast : (name ++ [last])[name.length]? = some last := by simp
  rw [hcap, if_neg hinside, hlength, hlast, Option.bind_eq_bind, Option.bind_some]
  by_cases hzero : last ≠ 0
  · rw [if_pos hzero]
    rfl
  -- a width of Windows and a name that fits: the handle does not
  have hoverflow : ¬directory.toNat < 256 ^ pointerBytes.toInt.toNat := fun hhandle ↦
    h ⟨by tauto, hhandle, by simp, by omega, by simpa using hzero⟩
  rw [if_neg hzero]
  by_cases hfour : pointerBytes = 4
  · subst hfour
    have hlarge : ¬directory.toNat < 2 ^ 32 := hoverflow
    rw [if_pos rfl, if_pos]
    · rfl
    · rw [UInt64.lt_iff_toNat_lt]
      change 0xffffffff < directory.toNat
      omega
  · obtain rfl : pointerBytes = 8 := by tauto
    exact absurd directory.toNat_lt hoverflow

/-! ## Reading a record back -/

def handleOf (p : Nat) (information : Str) : Nat := leNat ((information.drop p).take p)

def nameBytesOf (p : Nat) (information : Str) : Nat := leNat ((information.drop (2 * p)).take 4)

def nameOf (p : Nat) (information : Str) : List UInt16 :=
  unitsOf ((information.drop (2 * p + 4)).take (nameBytesOf p information))

section Record

variable {p padding : Nat} {directory : UInt64} {name : List UInt16}

theorem length_record :
    (record p directory name padding).length = 2 * p + 4 + 2 * name.length + padding := by
  simp only [record, List.length_append, List.length_replicate, length_leBytes, length_unitBytes]
  omega

theorem handleOf_record (h : directory.toNat < 256 ^ p) :
    handleOf p (record p directory name padding) = directory.toNat := by
  have hzeros : (List.replicate p (0 : UInt8)).length = p := List.length_replicate
  have hhandle : (leBytes p directory.toNat).length = p := length_leBytes _ _
  rw [handleOf, record]
  simp only [List.append_assoc]
  rw [List.drop_left' hzeros, List.take_left' hhandle, leNat_leBytes h]

theorem nameBytesOf_record (h : 2 * name.length < 256 ^ 4) :
    nameBytesOf p (record p directory name padding) = 2 * name.length := by
  have hbefore : (List.replicate p 0 ++ leBytes p directory.toNat).length = 2 * p := by
    simp only [List.length_append, List.length_replicate, length_leBytes]
    omega
  rw [nameBytesOf, record, List.append_assoc, List.append_assoc, List.drop_left' hbefore,
    List.take_left' (length_leBytes 4 _), leNat_leBytes h]

theorem nameOf_record (h : 2 * name.length < 256 ^ 4) :
    nameOf p (record p directory name padding) = name := by
  have hbefore : (List.replicate p 0 ++ leBytes p directory.toNat ++
      leBytes 4 (2 * name.length)).length = 2 * p + 4 := by
    simp only [List.length_append, List.length_replicate, length_leBytes]
    omega
  rw [nameOf, nameBytesOf_record h, record, List.append_assoc, List.drop_left' hbefore,
    List.take_left' (length_unitBytes name), unitsOf_unitBytes]

/-- Before the handle and after the name there are zeros. -/
theorem zero_of_record {i : Nat} (hi : i < (record p directory name padding).length)
    (houtside : i < p ∨ 2 * p + 4 + 2 * name.length ≤ i) :
    (record p directory name padding)[i]? = some 0 := by
  rw [length_record] at hi
  rcases houtside with hbefore | hafter
  · rw [record]
    simp only [List.append_assoc]
    rw [List.getElem?_append_left (by simpa using hbefore), List.getElem?_replicate, if_pos hbefore]
  · have hlength : (List.replicate p 0 ++ leBytes p directory.toNat ++
        leBytes 4 (2 * name.length) ++ unitBytes name).length = 2 * p + 4 + 2 * name.length := by
      simp only [List.length_append, List.length_replicate, length_leBytes, length_unitBytes]
      omega
    rw [record, List.getElem?_append_right (by omega), hlength, List.getElem?_replicate,
      if_pos (by omega)]

end Record

/-- What a decoder reads in a record of a handle and a name: both of them, and
zeros everywhere else. -/
structure Decodes (pointerBytes : Int64) (directory : UInt64) (filename : List UInt16)
    (information : Str) : Prop where
  size : information.length = if pointerBytes = 4 then 532 else 544
  handle : handleOf pointerBytes.toInt.toNat information = directory.toNat
  nameBytes : nameBytesOf pointerBytes.toInt.toNat information = 2 * (filename.length - 1)
  name : nameOf pointerBytes.toInt.toNat information = filename.dropLast
  zeros : ∀ i, i < information.length →
    i < pointerBytes.toInt.toNat ∨
      2 * pointerBytes.toInt.toNat + 4 + nameBytesOf pointerBytes.toInt.toNat information ≤ i →
    information[i]? = some 0

theorem Accepted.eq_append {directory : UInt64} (h : Accepted pointerBytes directory filename) :
    filename = filename.dropLast ++ [0] := by
  have hlast := h.terminated
  rw [List.getLast?_eq_some_getLast h.nonempty, Option.some.injEq] at hlast
  rw [← hlast, List.dropLast_append_getLast]

theorem decodes_of_accepted {directory : UInt64} (h : Accepted pointerBytes directory filename) :
    ∃ information, marshalWindowsRenameInformation pointerBytes directory filename =
        some (some information) ∧ Decodes pointerBytes directory filename information := by
  have hcapacity := h.capacity
  have hfilename := h.eq_append
  generalize filename.dropLast = name at hfilename
  subst hfilename
  rw [List.length_append, List.length_singleton] at hcapacity
  refine ⟨_, marshal_of_accepted h, ?_, handleOf_record h.handle, ?_, ?_, fun i hi houtside ↦ ?_⟩
  · rw [length_record, recordSize]
    rcases h.width with rfl | rfl
    · change 2 * 4 + 4 + 2 * name.length + (532 - (2 * 4 + 4 + 2 * name.length)) = 532
      omega
    · change 2 * 8 + 4 + 2 * name.length + (544 - (2 * 8 + 4 + 2 * name.length)) = 544
      omega
  · rw [nameBytesOf_record (by omega), List.length_append, List.length_singleton,
      Nat.add_sub_cancel]
  · rw [nameOf_record (by omega), List.dropLast_concat]
  · rw [nameBytesOf_record (by omega)] at houtside
    exact zero_of_record hi houtside

/-- For every width, handle and name the encoder indexes nothing out of bounds; it
returns nil exactly for what is not accepted; what it returns otherwise decodes to
the handle and the name; and two accepted arguments of one width have different
records. -/
theorem marshal_lossless (pointerBytes : Int64) (directory : UInt64) (filename : List UInt16) :
    (∃ result, marshalWindowsRenameInformation pointerBytes directory filename = some result ∧
      (result = none ↔ ¬Accepted pointerBytes directory filename) ∧
      ∀ information, result = some information →
        Decodes pointerBytes directory filename information) ∧
    ∀ directory' filename' information,
      marshalWindowsRenameInformation pointerBytes directory filename = some (some information) →
      marshalWindowsRenameInformation pointerBytes directory' filename' = some (some information) →
      directory = directory' ∧ filename = filename' := by
  have hdecodes : ∀ {directory filename information},
      marshalWindowsRenameInformation pointerBytes directory filename = some (some information) →
      Accepted pointerBytes directory filename ∧
        Decodes pointerBytes directory filename information := by
    intro directory filename information hmarshal
    by_cases h : Accepted pointerBytes directory filename
    · obtain ⟨information', hmarshal', hdecodes⟩ := decodes_of_accepted h
      rw [hmarshal, Option.some.injEq, Option.some.injEq] at hmarshal'
      exact ⟨h, hmarshal' ▸ hdecodes⟩
    · rw [marshal_of_not_accepted h, Option.some.injEq] at hmarshal
      contradiction
  constructor
  · by_cases h : Accepted pointerBytes directory filename
    · obtain ⟨information, hmarshal, -⟩ := decodes_of_accepted h
      refine ⟨_, hmarshal, iff_of_false nofun (not_not_intro h), ?_⟩
      rintro _ hinformation
      cases hinformation
      exact (hdecodes hmarshal).2
    · exact ⟨_, marshal_of_not_accepted h, iff_of_true rfl h, nofun⟩
  · intro directory' filename' information hleft hright
    obtain ⟨haccepted, hdecoded⟩ := hdecodes hleft
    obtain ⟨haccepted', hdecoded'⟩ := hdecodes hright
    refine ⟨UInt64.toNat_inj.mp (hdecoded.handle.symm.trans hdecoded'.handle), ?_⟩
    rw [haccepted.eq_append, haccepted'.eq_append, ← hdecoded.name, ← hdecoded'.name]

end GoFilesystem.Local.Rename
