import GoFilesystem.Access
import GoFilesystem.Memory.Adapter

/-!
# What the methods do to the objects map

The methods of the in-memory adapter change the map in four ways: `Write`
stores under a path other than the root, `Delete` and `Move` remove, `Copy` and
`Move` store under their destination, and the setters store under a path that
is there already.  A discipline that allows these steps is obeyed by the whole
adapter (`backend_obeys`).  Every invariant of the map and every frame is an
instance.

Listing changes nothing, but it panics on a key that no path has as its string.
-/

namespace GoFilesystem.Memory

open Go Method

/-- Every key is the string of a path that `ParsePath` accepts. -/
def KeysValid (objects : Objects) : Prop :=
  ∀ name stored, objects.lookup name = some stored → NormalForm name

/-- The discipline allows what the methods do under an access. -/
structure Admits (D : Call.Discipline Objects) (A : Access) : Prop where
  write : ∀ {objects path} stored, D.pre objects → A.writes path → path ≠ .root →
    D.Allows objects (objects.insert path.value stored)
  remove : ∀ {objects path}, D.pre objects → A.removes path →
    D.Allows objects (objects.erase path.value)
  create : ∀ {objects path} stored, D.pre objects → A.creates path →
    D.Allows objects (objects.insert path.value stored)
  modify : ∀ {objects path old} stored, D.pre objects → A.modifies path →
    objects.lookup path.value = some old → D.Allows objects (objects.insert path.value stored)
  list : D.mayPanic ∨ ∀ objects, D.pre objects → KeysValid objects

variable {α : Type} {D D' : Call.Discipline Objects} {A : Access} {objects : Objects} {path : Path}

theorem Admits.inf (h : Admits D A) (h' : Admits D' A) : Admits (D.inf D') A where
  write stored hs hw hp := (h.write stored hs.1 hw hp).inf (h'.write stored hs.2 hw hp)
  remove hs hp := (h.remove hs.1 hp).inf (h'.remove hs.2 hp)
  create stored hs hp := (h.create stored hs.1 hp).inf (h'.create stored hs.2 hp)
  modify stored hs hp hl := (h.modify stored hs.1 hp hl).inf (h'.modify stored hs.2 hp hl)
  list := by
    rcases h.list with hpanic | hkeys
    · exact h'.list.imp (⟨hpanic, ·⟩) fun hkeys objects hs ↦ hkeys objects hs.2
    · exact .inr fun objects hs ↦ hkeys objects hs.1

/-! ## Reading -/

theorem reading_obeys (path : Path) (zero : α) (body : Object → α × Option Err) :
    Obeys D (reading path zero body) fun _ ↦ True := by
  refine obeys_ctxErr.bind fun err _ ↦ ?_
  cases err with
  | some err => exact .pure trivial
  | none =>
      refine obeys_load.bind fun objects _ ↦ ?_
      cases objects.lookup path.value with
      | none => exact .pure trivial
      | some stored => exact .pure trivial

theorem openRange_obeys (path : Path) (byteRange : ByteRange) :
    Obeys D (openRange path byteRange) fun _ ↦ True := by
  unfold openRange
  split
  · exact .pure trivial
  · exact reading_obeys path _ _

/-- The paths that `List` parses for a valid key are valid: the key itself, or
the part of it before a slash. -/
theorem entryFor_obeys {name : Str} (h : D.mayPanic ∨ NormalForm name) (pre : Str)
    (recursive : Bool) (stored : Object) :
    Obeys D (entryFor pre recursive name stored) fun _ ↦ True := by
  unfold entryFor
  split
  · rename_i hpre
    obtain ⟨remainder, rfl⟩ := List.isPrefixOf_iff_prefix.mp hpre
    simp only [List.drop_left]
    split
    · rename_i child rest hcut
      obtain ⟨rfl, -⟩ := cut_eq_some hcut
      rw [← List.append_assoc] at h
      exact (obeys_mustParsePath (h.imp_right NormalForm.left)).bind fun _ _ ↦ .pure trivial
    · exact (obeys_mustParsePath h).bind fun _ _ ↦ .pure trivial
  · exact .pure trivial

theorem collect_obeys (pre : Str) (recursive : Bool) (pairs : List (Str × Object))
    (h : D.mayPanic ∨ ∀ p ∈ pairs, NormalForm p.1) (entriesByPath : EntryMap) :
    Obeys D (collect pre recursive pairs entriesByPath) fun _ ↦ True := by
  induction pairs generalizing entriesByPath with
  | nil => exact .pure trivial
  | cons p pairs ih =>
      obtain ⟨name, stored⟩ := p
      rw [List.forall_mem_cons] at h
      refine (entryFor_obeys (h.imp_right And.left) pre recursive stored).bind fun found _ ↦ ?_
      cases found with
      | none => exact ih (h.imp_right And.right) _
      | some found => exact ih (h.imp_right And.right) _

theorem list_obeys (h : D.mayPanic ∨ ∀ objects, D.pre objects → KeysValid objects)
    (directory : Path) (options : ListOptions) :
    Obeys D (list directory options) fun _ ↦ True := by
  refine obeys_ctxErr.bind fun err _ ↦ ?_
  cases err with
  | some err => exact .pure trivial
  | none =>
      dsimp only
      split
      · exact .pure trivial
      · refine obeys_ask.bind fun env _ ↦ obeys_load.bind fun objects ho ↦ ?_
        refine (collect_obeys _ _ _ (h.imp_right ?_) _).bind fun _ _ ↦ .pure trivial
        intro hk p hp
        exact hk objects ho _ _ (GoMap.mem_range.mp hp)

/-! ## Writing -/

theorem publish_allows (h : Admits D A) (ho : D.pre objects) (hw : A.writes path)
    (hpath : path ≠ .root) (ifNoneMatch : Bool) (stored : Object) :
    D.Allows objects (publish path ifNoneMatch stored objects).2 := by
  unfold publish
  split
  · exact .refl ho
  · exact h.write stored ho hw hpath

/-- `Write` checks for the root itself. -/
theorem write_obeys (h : Admits D A) (hw : A.writes path) (source : Source)
    (options : WriteOptions) :
    Obeys D (write path source options) fun _ ↦ True := by
  unfold write
  split
  · exact .pure trivial
  · rename_i hpath
    rw [Path.isRoot_iff] at hpath
    cases normalizeVisibility options.visibility with
    | error err => exact .pure trivial
    | ok visibility =>
        refine (obeys_copySource source).bind fun copied _ ↦ ?_
        cases copied with
        | error err => exact .pure trivial
        | ok content =>
            refine obeys_ctxErr.bind fun err _ ↦ ?_
            cases err with
            | some err => exact .pure trivial
            | none =>
                refine obeys_clock.bind fun now _ ↦ ?_
                refine (obeys_modify fun _ ho ↦ publish_allows h ho hw hpath _ _).bind
                  fun err _ ↦ ?_
                cases err with
                | some err => exact .pure trivial
                | none => exact .pure trivial

theorem openWriter_obeys (h : Admits D A) (hw : A.writes path) (options : WriteOptions) :
    Obeys D (openWriter path options) (OpensObeying D) := by
  refine obeys_ctxErr.bind fun err _ ↦ ?_
  cases err with
  | some err => exact .pure trivial
  | none =>
      dsimp only
      split
      · exact .pure trivial
      · exact .pure fun source ↦ (write_obeys h hw source options).bind fun _ _ ↦ .pure trivial

/-! ## Changing stored objects -/

/-- A step under the write lock does what its body does. -/
theorem locked_obeys {body : Time → Objects → Option Err × Objects}
    (h : ∀ now objects, D.pre objects → D.Allows objects (body now objects).2) :
    Obeys D (locked body) fun _ ↦ True := by
  refine obeys_ctxErr.bind fun err _ ↦ ?_
  cases err with
  | some err => exact .pure trivial
  | none => exact obeys_clock.bind fun now _ ↦ obeys_modify (h now)

theorem deleteLocked_allows (h : Admits D A) (hp : A.removes path) (ho : D.pre objects) :
    D.Allows objects (deleteLocked path objects).2 := by
  unfold deleteLocked
  split
  · exact .refl ho
  · exact h.remove ho hp

theorem copyLocked_allows (h : Admits D A) (source : Path) {destination : Path}
    (hd : A.creates destination) (options : OverwriteOptions) (now : Time) (ho : D.pre objects) :
    D.Allows objects (copyLocked source destination options now objects).2 := by
  unfold copyLocked
  split
  · exact .refl ho
  · split
    · exact .refl ho
    · exact h.create _ ho hd

theorem moveLocked_allows (h : Admits D A) {source destination : Path} (hs : A.removes source)
    (hd : A.creates destination) (options : OverwriteOptions) (now : Time) (ho : D.pre objects) :
    D.Allows objects (moveLocked source destination options now objects).2 := by
  unfold moveLocked
  split
  · exact .refl ho
  · split
    · exact .refl ho
    · split
      · exact .refl ho
      · rename_i stored _ _ _
        have hcreate := h.create { stored with modified := now } ho hd
        exact hcreate.trans (h.remove hcreate.1 hs)

theorem touchLocked_allows (h : Admits D A) (hp : A.modifies path) (change : Object → Object)
    (now : Time) (ho : D.pre objects) :
    D.Allows objects (touchLocked path change now objects).2 := by
  unfold touchLocked
  split
  · exact .refl ho
  · rename_i hl
    exact h.modify _ ho hp hl

theorem setVisibility_obeys (h : Admits D A) (hp : A.modifies path) (visibility : Visibility) :
    Obeys D (setVisibility path visibility) fun _ ↦ True := by
  unfold setVisibility
  split
  · exact .pure trivial
  · exact locked_obeys fun now _ ho ↦ touchLocked_allows h hp _ now ho

/-- The adapter obeys every discipline that allows the steps of its methods. -/
theorem backend_obeys (h : Admits D A) (hashes : Hashes) : (backend hashes).Obeys D A where
  openPath path _ := reading_obeys path _ _
  openRange path byteRange _ := openRange_obeys path byteRange
  write _ source options hw := write_obeys h hw source options
  openWriter _ options hw := openWriter_obeys h hw options
  delete _ hp := locked_obeys fun _ _ ho ↦ deleteLocked_allows h hp ho
  list directory options _ := list_obeys h.list directory options
  stat path _ := reading_obeys path _ _
  copy source _ options _ hd := locked_obeys fun now _ ho ↦
    copyLocked_allows h source hd options now ho
  move _ _ options hs hd := locked_obeys fun now _ ho ↦ moveLocked_allows h hs hd options now ho
  setMetadata _ _ hp := locked_obeys fun now _ ho ↦ touchLocked_allows h hp _ now ho
  checksum path _ _ := reading_obeys path _ _
  visibility path _ := (reading_obeys path _ _).bind fun _ _ ↦ .pure trivial
  setVisibility _ visibility hp := setVisibility_obeys h hp visibility
  temporaryURL _ hsign := by simp [backend] at hsign

def stored (objects : Objects) (name : Str) : Option Object := objects.lookup name

/-- The frame of the names in `K` allows what the methods do at those names. -/
theorem outside_admits (K : Set Str) : Admits (.outside stored K) (.within K) := by
  have hinsert : ∀ {objects : Objects} {name : Str} (object : Object), name ∈ K →
      (Call.Discipline.outside stored K).Allows objects (objects.insert name object) := by
    intro objects name object hname
    exact ⟨trivial, fun k hk ↦ Finmap.lookup_insert_of_ne _ (ne_of_mem_of_not_mem hname hk).symm⟩
  refine ⟨?_, ?_, ?_, ?_, .inl trivial⟩
  · exact fun object _ hw _ ↦ hinsert object hw
  · exact fun _ hp ↦ ⟨trivial, fun k hk ↦
      Finmap.lookup_erase_ne (ne_of_mem_of_not_mem hp hk).symm⟩
  · exact fun object _ hd ↦ hinsert object hd
  · exact fun object _ hp _ ↦ hinsert object hp

/-- A method changes only the objects at the paths it is called with. -/
theorem backend_frames (hashes : Hashes) : (backend hashes).Frames stored :=
  fun K ↦ backend_obeys (outside_admits K) hashes

end GoFilesystem.Memory
