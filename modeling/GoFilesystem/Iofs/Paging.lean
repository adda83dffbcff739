import GoFilesystem.Memory.Naming

/-!
# Reading a directory page by page

A sequence of `ReadDir` calls on an opened directory cuts the list of its entries
into pages (`Paged`): a call with a positive count returns at least one and at
most that many entries, or `io.EOF` when none remain, and any other call returns
all that remain.

The code adds the count to its cursor before it compares the sum with the number
of entries.  When the sum is not an `int`, it wraps around to a negative number
and the slice expression panics; this takes a cursor that has moved and has not
reached the end, so it is never the first call.  `NoOverflow` says that no call
of the sequence does this, and it is all that is needed.
-/

namespace GoFilesystem.Iofs

open Go

/-- The pages that a sequence of calls may return, given the entries that remain. -/
inductive Paged : List Info → List Int64 → List Directory.Page → Prop where
  /-- No call. -/
  | nil {remaining : List Info} : Paged remaining [] []
  /-- A call for all entries. -/
  | all {remaining : List Info} {count : Int64} {counts : List Int64}
      {pages : List Directory.Page} : count ≤ 0 → Paged [] counts pages →
      Paged remaining (count :: counts) ((remaining, none) :: pages)
  /-- A call for a page when no entry remains. -/
  | eof {count : Int64} {counts : List Int64} {pages : List Directory.Page} :
      0 < count → Paged [] counts pages →
      Paged [] (count :: counts) (([], some (.sentinel .eof)) :: pages)
  /-- A call for a page. -/
  | page {page rest : List Info} {count : Int64} {counts : List Int64}
      {pages : List Directory.Page} : 1 ≤ page.length → page.length ≤ count.toInt →
      Paged rest counts pages → Paged (page ++ rest) (count :: counts) ((page, none) :: pages)

variable {counts : List Int64}

/-- No entry is lost, repeated or moved. -/
theorem Paged.isPrefix {remaining : List Info} {pages : List Directory.Page}
    (h : Paged remaining counts pages) : pages.flatMap Prod.fst <+: remaining := by
  induction h with
  | nil => exact List.nil_prefix
  | all _ _ ih =>
      rw [List.flatMap_cons, List.prefix_nil.mp ih, List.append_nil]
  | eof _ _ ih => exact ih
  | page _ _ _ ih =>
      rw [List.flatMap_cons]
      exact (List.prefix_append_right_inj _).mpr ih

def advance (length position : Nat) (count : Int64) : Nat :=
  if count ≤ 0 then length else min (position + count.toInt.toNat) length

/-- No call for a page adds a count to the cursor that takes the sum beyond the
largest `int`, unless the cursor is at the end. -/
def NoOverflow (length : Nat) : Nat → List Int64 → Prop
  | _, [] => True
  | position, count :: counts =>
    (0 < count → position < length → position + count.toInt < 2 ^ 63) ∧
      NoOverflow length (advance length position count) counts

namespace Directory

/-- A sequence of `ReadDir` calls. -/
def readDirs (d : Directory) : List Int64 → Option (List Page)
  | [] => some []
  | count :: counts =>
    (d.readDir count).bind fun (page, d) ↦ (d.readDirs counts).map (page :: ·)

/-! ## One call -/

section Call

variable {d : Directory} {count : Int64}

theorem not_nonpos (h : 0 < count) : ¬count ≤ 0 := Int64.not_le.mpr h

theorem toInt_pos (h : 0 < count) : 0 < count.toInt := by
  rw [Int64.lt_iff_toInt_lt, Int64.toInt_zero] at h
  exact h

/-- A call for all entries. -/
theorem readDir_all (hopen : d.closed = false) (hle : d.offset ≤ d.entries.length)
    (hcount : count ≤ 0) :
    d.readDir count =
      some ((d.entries.drop d.offset, none), { d with offset := d.entries.length }) := by
  unfold readDir
  rw [hopen, if_neg Bool.false_ne_true, if_pos hcount,
    slice_eq_some (by omega) (by omega) le_rfl, List.take_of_length_le (by simp)]
  rfl

/-- A call for a page at the end. -/
theorem readDir_eof (hopen : d.closed = false) (hend : d.entries.length ≤ d.offset)
    (hcount : 0 < count) : d.readDir count = some (([], some (.sentinel .eof)), d) := by
  unfold readDir
  rw [hopen, if_neg Bool.false_ne_true, if_neg (not_nonpos hcount), if_pos hend]

/-- The sum in the code, of a cursor that is an `int`. -/
theorem toInt_offset_add (h : d.offset < 2 ^ 63) :
    (Int64.ofNat d.offset + count).toInt = (d.offset + count.toInt).bmod (2 ^ 64) := by
  rw [Int64.toInt_add, Int64.toInt_ofNat_of_lt h]

/-- A call for a page whose sum is an `int`. -/
theorem readDir_page (hopen : d.closed = false) (hoffset : d.offset < d.entries.length)
    (hcount : 0 < count) (hsum : d.offset + count.toInt < 2 ^ 63) :
    d.readDir count =
      some ((((d.entries.drop d.offset).take count.toInt.toNat), none),
        { d with offset := advance d.entries.length d.offset count }) := by
  have hpos := toInt_pos hcount
  have hstop : min (Int64.ofNat d.offset + count).toInt d.entries.length =
      (advance d.entries.length d.offset count : Nat) := by
    rw [toInt_offset_add (by omega), Int.bmod_eq_of_le (by omega) (by omega)]
    unfold advance
    rw [if_neg (not_nonpos hcount)]
    omega
  have hadvance : d.offset ≤ advance d.entries.length d.offset count ∧
      advance d.entries.length d.offset count ≤ d.entries.length := by
    unfold advance
    rw [if_neg (not_nonpos hcount)]
    omega
  have htake : (d.entries.drop d.offset).take
      (advance d.entries.length d.offset count - d.offset : Int).toNat =
        (d.entries.drop d.offset).take count.toInt.toNat := by
    rw [List.take_eq_take_iff, List.length_drop]
    unfold advance
    rw [if_neg (not_nonpos hcount)]
    omega
  unfold readDir
  rw [hopen, if_neg Bool.false_ne_true, if_neg (not_nonpos hcount), if_neg (by omega)]
  dsimp only
  rw [hstop, slice_eq_some (by omega) (by omega) (by omega), Int.toNat_natCast,
    Int.toNat_natCast, htake]
  rfl

/-- A call for a page whose sum is no `int`. -/
theorem readDir_overflow (hopen : d.closed = false) (hoffset : d.offset < d.entries.length)
    (hlength : d.entries.length < 2 ^ 63) (hcount : 0 < count)
    (hsum : 2 ^ 63 ≤ d.offset + count.toInt) : d.readDir count = none := by
  have hmax := count.toInt_lt
  have hnegative : (Int64.ofNat d.offset + count).toInt < 0 := by
    rw [toInt_offset_add (by omega), Int.bmod_def]
    omega
  unfold readDir
  rw [hopen, if_neg Bool.false_ne_true, if_neg (not_nonpos hcount), if_neg (by omega)]
  dsimp only
  unfold slice
  rw [if_neg (by omega)]
  rfl

theorem drop_advance (hcount : ¬count ≤ 0) :
    d.entries.drop (advance d.entries.length d.offset count) =
      (d.entries.drop d.offset).drop count.toInt.toNat := by
  rw [advance, if_neg hcount, List.drop_drop]
  rcases Nat.le_total (d.offset + count.toInt.toNat) d.entries.length with h | h
  · rw [min_eq_left h]
  · rw [min_eq_right h, List.drop_length, List.drop_eq_nil_of_le h]

theorem advance_le : advance d.entries.length d.offset count ≤ d.entries.length := by
  unfold advance
  split
  · exact le_rfl
  · exact min_le_right _ _

/-- A call whose sum, if it needs one, is an `int`: it moves the cursor, and what
it returns is the next page. -/
theorem readDir_step (hopen : d.closed = false) (hle : d.offset ≤ d.entries.length)
    (hsum : 0 < count → d.offset < d.entries.length → d.offset + count.toInt < 2 ^ 63) :
    ∃ page, d.readDir count =
        some (page, { d with offset := advance d.entries.length d.offset count }) ∧
      ∀ {counts pages},
        Paged (d.entries.drop (advance d.entries.length d.offset count)) counts pages →
        Paged (d.entries.drop d.offset) (count :: counts) (page :: pages) := by
  by_cases hcount : count ≤ 0
  · have hadvance : advance d.entries.length d.offset count = d.entries.length := if_pos hcount
    rw [hadvance, List.drop_length]
    exact ⟨_, readDir_all hopen hle hcount, .all hcount⟩
  · have hpos := Int64.not_le.mp hcount
    by_cases hend : d.entries.length ≤ d.offset
    · have hadvance : advance d.entries.length d.offset count = d.offset := by
        rw [advance, if_neg hcount]
        omega
      rw [hadvance, List.drop_eq_nil_of_le hend]
      exact ⟨_, readDir_eof hopen hend hpos, .eof hpos⟩
    · have hoffset := Nat.lt_of_not_le hend
      refine ⟨_, readDir_page hopen hoffset hpos (hsum hpos hoffset), fun {counts pages} h ↦ ?_⟩
      have hint := toInt_pos hpos
      rw [drop_advance hcount] at h
      have hfirst : 1 ≤ ((d.entries.drop d.offset).take count.toInt.toNat).length := by
        rw [List.length_take, List.length_drop]
        omega
      have hmost : ((d.entries.drop d.offset).take count.toInt.toNat).length ≤ count.toInt := by
        rw [List.length_take]
        omega
      have hpage := Paged.page hfirst hmost h
      rwa [List.take_append_drop] at hpage

end Call

/-! ## Any number of calls -/

/-- The entries come page by page. -/
theorem readDirs_paged {d : Directory} (hopen : d.closed = false)
    (hle : d.offset ≤ d.entries.length) (h : NoOverflow d.entries.length d.offset counts) :
    ∃ pages, d.readDirs counts = some pages ∧ Paged (d.entries.drop d.offset) counts pages := by
  induction counts generalizing d with
  | nil => exact ⟨[], rfl, .nil⟩
  | cons count counts ih =>
      obtain ⟨page, hcall, hpage⟩ := readDir_step hopen hle h.1
      obtain ⟨pages, hpages, hpaged⟩ :=
        @ih { d with offset := advance d.entries.length d.offset count } hopen advance_le h.2
      refine ⟨page :: pages, ?_, hpage hpaged⟩
      rw [readDirs, hcall, Option.bind_some]
      dsimp only
      rw [hpages]
      rfl

/-- A sequence of calls that does not panic has no sum that wraps around. -/
theorem noOverflow_of_readDirs {d : Directory} (hopen : d.closed = false)
    (hle : d.offset ≤ d.entries.length) (hlength : d.entries.length < 2 ^ 63) {pages : List Page}
    (h : d.readDirs counts = some pages) : NoOverflow d.entries.length d.offset counts := by
  induction counts generalizing d pages with
  | nil => trivial
  | cons count counts ih =>
      obtain ⟨⟨page, d'⟩, hcall, hrest⟩ := Option.bind_eq_some_iff.mp h
      obtain ⟨pages', hpages, -⟩ := Option.map_eq_some_iff.mp hrest
      have hsum : 0 < count → d.offset < d.entries.length →
          d.offset + count.toInt < 2 ^ 63 := by
        intro hpos hoffset
        by_contra hover
        rw [readDir_overflow hopen hoffset hlength hpos (Int.not_lt.mp hover)] at hcall
        contradiction
      obtain ⟨page', hstep, -⟩ := readDir_step hopen hle hsum
      rw [hstep] at hcall
      obtain ⟨-, rfl⟩ := Prod.mk.inj (Option.some.inj hcall)
      exact ⟨hsum, @ih { d with offset := advance d.entries.length d.offset count } hopen
        advance_le hlength _ hpages⟩

end Directory

/-- An opened directory has all its entries to read. -/
theorem openFile_directory {σ : Type} (b : Backend σ) (name : Str) (envs : Nat → Env)
    (s : Session σ) : Call.Ensures (openFile b name) envs s fun r _ ↦
      ∀ d, r = .ok (.directory d) → d.closed = false ∧ d.offset = 0 := by
  have hany {α : Type} (x : Bridge σ α) (t : Session σ) : Call.Ensures x envs t fun _ _ ↦ True :=
    fun _ _ _ ↦ trivial
  unfold openFile
  split
  · exact .pure nofun
  · refine (hany _ s).bind fun found t _ ↦ ?_
    split
    · exact .pure nofun
    · split
      · refine (hany _ t).bind fun listed t' _ ↦ ?_
        split
        · exact .pure nofun
        · refine (hany _ t').bind fun base t'' _ ↦ .pure ?_
          rintro d heq
          injection heq with heq
          injection heq with heq
          rw [← heq]
          exact ⟨rfl, rfl⟩
      · refine (hany _ t).bind fun opened t' _ ↦ ?_
        split
        · exact .pure nofun
        · refine (hany _ t').bind fun base t'' _ ↦ .pure nofun

/-- **Paging.**  The calls on an opened directory return its entries page by page,
without a panic, exactly when none of them adds a count to the cursor whose sum is
no `int`.  The number of entries of a slice is always one. -/
theorem readDirs_iff {σ : Type} {b : Backend σ} {name : Str} {envs : Nat → Env}
    {s s' : Session σ} {d : Directory}
    (hopen : openFile b name envs s = some (.ok (.directory d), s'))
    (hlength : d.entries.length < 2 ^ 63) (counts : List Int64) :
    (∃ pages, d.readDirs counts = some pages ∧ Paged d.entries counts pages ∧
      pages.flatMap Prod.fst <+: d.entries) ↔ NoOverflow d.entries.length 0 counts := by
  obtain ⟨hclosed, hoffset⟩ := openFile_directory b name envs s _ _ hopen d rfl
  constructor
  · rintro ⟨pages, hpages, -⟩
    have hfits := Directory.noOverflow_of_readDirs hclosed (hoffset ▸ Nat.zero_le _) hlength hpages
    rwa [hoffset] at hfits
  · intro hfits
    rw [← hoffset] at hfits
    obtain ⟨pages, hpages, hpaged⟩ :=
      Directory.readDirs_paged hclosed (hoffset ▸ Nat.zero_le _) hfits
    rw [hoffset, List.drop_zero] at hpaged
    exact ⟨pages, hpages, hpaged, hpaged.isPrefix⟩

def twoObjects : Memory.Objects :=
  (Memory.singleObject (.lit "a")).insert (.lit "b") ⟨.lit "y", none, [], .visibilityPrivate, 0⟩

/-- The root of the two objects, opened: it has two entries. -/
theorem open_twoObjects :
    ∃ d s, openFile (Memory.backend ⟨id, id, fun _ ↦ 0⟩) PathName.current
        (fun _ ↦ Memory.visiting (KeyOrder.increasing Str).toIterOrder) ⟨twoObjects, 0⟩ =
          some (.ok (.directory d), s) ∧ d.entries.length = 2 := by
  have hroot : ioFSPath (nameOf .root) = .ok .root := rfl
  have hkeys : Memory.KeysValid twoObjects :=
    Memory.KeysValid.insert (Memory.keysValid_singleObject (by decide)) (by decide) _
  obtain ⟨d, s, hopen, hsorted, hnames⟩ := Memory.openFile_directory_spec ⟨id, id, fun _ ↦ 0⟩
    (fun _ ↦ Memory.visiting (KeyOrder.increasing Str).toIterOrder) 0 hkeys hroot
    (.inl rfl)
  refine ⟨d, s, hopen, ?_⟩
  have hperm : (d.entries.map Info.name).Perm [.lit "a", .lit "b"] := by
    refine (List.perm_ext_iff_of_nodup (hsorted.imp fun h ↦ h.ne) (by decide)).mpr fun child ↦ ?_
    rw [hnames]
    constructor
    · rintro ⟨key, hkey, rest, hsegments⟩
      rw [twoObjects, Finmap.mem_insert, Memory.mem_singleObject] at hkey
      rcases hkey with rfl | rfl
      · have hb : segmentsOf (.lit "b") = [.lit "b"] := by decide
        rw [hb] at hsegments
        rw [← (List.cons.inj hsegments).1]
        decide
      · have ha : segmentsOf (.lit "a") = [.lit "a"] := by decide
        rw [ha] at hsegments
        rw [← (List.cons.inj hsegments).1]
        decide
    · intro hchild
      rw [List.mem_cons, List.mem_singleton] at hchild
      rcases hchild with rfl | rfl
      · exact ⟨.lit "a", by decide, [], by decide⟩
      · exact ⟨.lit "b", by decide, [], by decide⟩
  have hlength := hperm.length_eq
  rwa [List.length_map] at hlength

/-- Two calls for one entry each, and one at the end. -/
theorem readDirs_twoObjects :
    ∃ d s, openFile (Memory.backend ⟨id, id, fun _ ↦ 0⟩) PathName.current
        (fun _ ↦ Memory.visiting (KeyOrder.increasing Str).toIterOrder) ⟨twoObjects, 0⟩ =
          some (.ok (.directory d), s) ∧
      ∃ pages, d.readDirs [1, 1, .maxValue] = some pages ∧
        Paged d.entries [1, 1, .maxValue] pages := by
  obtain ⟨d, s, hopen, hlength⟩ := open_twoObjects
  have hfits : NoOverflow d.entries.length 0 [1, 1, .maxValue] := by
    rw [hlength]
    refine ⟨fun _ _ ↦ by decide, fun _ _ ↦ by decide, fun _ h ↦ absurd h (by decide), trivial⟩
  obtain ⟨pages, hpages, hpaged, -⟩ :=
    (readDirs_iff hopen (by rw [hlength]; decide) [1, 1, .maxValue]).mpr hfits
  exact ⟨d, s, hopen, pages, hpages, hpaged⟩

/-- A call for one entry, then a call for as many as an `int` can count. -/
theorem readDirs_panics :
    ∃ d s, openFile (Memory.backend ⟨id, id, fun _ ↦ 0⟩) PathName.current
        (fun _ ↦ Memory.visiting (KeyOrder.increasing Str).toIterOrder) ⟨twoObjects, 0⟩ =
          some (.ok (.directory d), s) ∧
      d.entries.length = 2 ∧ d.readDirs [1, .maxValue] = none := by
  obtain ⟨d, s, hopen, hlength⟩ := open_twoObjects
  obtain ⟨hclosed, hoffset⟩ := openFile_directory _ _ _ _ _ _ hopen d rfl
  refine ⟨d, s, hopen, hlength, ?_⟩
  cases hpages : d.readDirs [1, .maxValue] with
  | none => rfl
  | some pages =>
      have hfits := Directory.noOverflow_of_readDirs hclosed (hoffset ▸ Nat.zero_le _)
        (by rw [hlength]; decide) hpages
      rw [hlength, hoffset] at hfits
      exact absurd (hfits.2.1 (by decide) (by decide)) (by decide)

end GoFilesystem.Iofs
