import GoFilesystem.Locality
import GoFilesystem.Memory.Adapter

/-!
# The in-memory adapter sees only where it is asked to look

A method of the adapter that is called with paths in a region depends on the
rest of the map in no way, and on modification times only to report them.  A
region holds with each name everything beneath it, so that it holds whatever
listing one of its names visits.
-/

namespace GoFilesystem.Memory

open Go Method

/-- A set of names that is closed under going down, and in which no name is the
root's. -/
structure IsRegion (K : Set Str) : Prop where
  ne_nil : ∀ name ∈ K, name ≠ []
  closed : ∀ name ∈ K, ∀ rest, name ++ slash :: rest ∈ K

def Object.timeless (object : Object) : Object := { object with modified := 0 }

/-- Two maps that hold the same objects in a region, up to modification times. -/
def AgreeOn (K : Set Str) (objects objects' : Objects) : Prop :=
  ∀ name ∈ K, (objects.lookup name).map Object.timeless =
    (objects'.lookup name).map Object.timeless

variable {α : Type} {K : Set Str} {order : KeyOrder Str} {objects objects' : Objects} {path : Path}
  {entriesByPath entriesByPath' : EntryMap}

/-- Looking up one name in the two maps. -/
theorem AgreeOn.lookup (h : AgreeOn K objects objects') {name : Str} (hname : name ∈ K) :
    (objects.lookup name = none ∧ objects'.lookup name = none) ∨
      ∃ object object', objects.lookup name = some object ∧
        objects'.lookup name = some object' ∧ object.timeless = object'.timeless := by
  have hagree := h name hname
  cases hl : objects.lookup name with
  | none =>
      rw [hl, Option.map_none, eq_comm, Option.map_eq_none_iff] at hagree
      exact .inl ⟨rfl, hagree⟩
  | some object =>
      rw [hl, Option.map_some, eq_comm, Option.map_eq_some_iff] at hagree
      obtain ⟨object', hl', heq⟩ := hagree
      exact .inr ⟨object, object', rfl, hl', heq.symm⟩

theorem AgreeOn.insert (h : AgreeOn K objects objects') (name : Str) {object object' : Object}
    (heq : object.timeless = object'.timeless) :
    AgreeOn K (objects.insert name object) (objects'.insert name object') := by
  intro name' hname'
  by_cases hne : name' = name
  · rw [hne, Finmap.lookup_insert, Finmap.lookup_insert, Option.map_some, Option.map_some, heq]
  · rw [Finmap.lookup_insert_of_ne _ hne, Finmap.lookup_insert_of_ne _ hne]
    exact h name' hname'

theorem AgreeOn.erase (h : AgreeOn K objects objects') (name : Str) :
    AgreeOn K (objects.erase name) (objects'.erase name) := by
  intro name' hname'
  by_cases hne : name' = name
  · rw [hne, Finmap.lookup_erase, Finmap.lookup_erase]
  · rw [Finmap.lookup_erase_ne hne, Finmap.lookup_erase_ne hne]
    exact h name' hname'

/-! ## Reading -/

theorem reading_alike {V : α × Option Err → α × Option Err → Prop} (hpath : path.value ∈ K)
    (zero : α) {body : Object → α × Option Err} (hzero : ∀ err, V (zero, err) (zero, err))
    (hbody : ∀ object object', object.timeless = object'.timeless →
      V (body object) (body object')) :
    Alike order (AgreeOn K) V (reading path zero body) (reading path zero body) := by
  refine alike_ctxErr.bind ?_
  rintro err _ rfl
  cases err with
  | some err => exact .pure (hzero _)
  | none =>
      refine alike_load.bind fun objects objects' h ↦ ?_
      rcases h.lookup hpath with ⟨hl, hl'⟩ | ⟨object, object', hl, hl', heq⟩
      · rw [hl, hl']
        exact .pure (hzero _)
      · rw [hl, hl']
        exact .pure (hbody object object' heq)

/-- What is read of an object without its modification time. -/
theorem reading_alike_eq (hpath : path.value ∈ K) (zero : α) {body : Object → α × Option Err}
    (hbody : ∀ object, body object = body object.timeless) :
    Alike order (AgreeOn K) Eq (reading path zero body) (reading path zero body) := by
  refine reading_alike hpath zero (fun _ ↦ rfl) fun object object' heq ↦ ?_
  rw [hbody object, hbody object', heq]

theorem stat_alike (hpath : path.value ∈ K) :
    Alike order (AgreeOn K) (SameUpTo Metadata.timeless) (stat path) (stat path) := by
  refine reading_alike hpath _ (fun _ ↦ ⟨rfl, rfl⟩) fun object object' heq ↦ ⟨?_, rfl⟩
  have htimeless : ∀ object,
      (metadataFor path object).timeless = metadataFor path object.timeless := fun _ ↦ rfl
  rw [htimeless, htimeless, heq]

theorem visibility_alike (hpath : path.value ∈ K) :
    Alike order (AgreeOn K) Eq (visibility path) (visibility path) := by
  refine (stat_alike hpath).bind fun r r' hr ↦ .pure ?_
  exact Prod.ext (congrArg Metadata.visibility hr.1 :) hr.2

theorem openRange_alike (hpath : path.value ∈ K) (byteRange : ByteRange) :
    Alike order (AgreeOn K) Eq (openRange path byteRange) (openRange path byteRange) := by
  unfold openRange
  split
  · exact .pure rfl
  · exact reading_alike_eq hpath _ fun _ ↦ rfl

/-! ## Changing -/

theorem publish_agreeOn (h : AgreeOn K objects objects') (hpath : path.value ∈ K)
    (ifNoneMatch : Bool) {object object' : Object} (heq : object.timeless = object'.timeless) :
    (publish path ifNoneMatch object objects).1 = (publish path ifNoneMatch object' objects').1 ∧
      AgreeOn K (publish path ifNoneMatch object objects).2
        (publish path ifNoneMatch object' objects').2 := by
  have hsome : (objects.lookup path.value).isSome = (objects'.lookup path.value).isSome := by
    simpa only [Option.isSome_map] using congrArg Option.isSome (h path.value hpath)
  unfold publish
  rw [hsome]
  split
  · exact ⟨rfl, h⟩
  · exact ⟨rfl, h.insert _ heq⟩

theorem write_alike (hpath : path.value ∈ K) (source : Source) (options : WriteOptions) :
    Alike order (AgreeOn K) (SameUpTo Metadata.timeless) (write path source options)
      (write path source options) := by
  unfold write
  split
  · exact .pure ⟨rfl, rfl⟩
  · cases normalizeVisibility options.visibility with
    | error err => exact .pure ⟨rfl, rfl⟩
    | ok visibility =>
        refine (alike_copySource source).bind ?_
        rintro copied _ rfl
        cases copied with
        | error err => exact .pure ⟨rfl, rfl⟩
        | ok content =>
            refine alike_ctxErr.bind ?_
            rintro err _ rfl
            cases err with
            | some err => exact .pure ⟨rfl, rfl⟩
            | none =>
                refine alike_clock.bind fun now now' _ ↦ ?_
                refine (alike_modify (V := Eq) fun _ _ h ↦
                  publish_agreeOn h hpath _ (by rfl)).bind ?_
                rintro err _ rfl
                cases err with
                | some err => exact .pure ⟨rfl, rfl⟩
                | none => exact .pure ⟨rfl, rfl⟩

theorem openWriter_alike (hpath : path.value ∈ K) (options : WriteOptions) :
    Alike order (AgreeOn K) (OpensAlike order (AgreeOn K)) (openWriter path options)
      (openWriter path options) := by
  refine alike_ctxErr.bind ?_
  rintro err _ rfl
  cases err with
  | some err => exact .pure (.error _)
  | none =>
      dsimp only
      split
      · exact .pure (.error _)
      · refine .pure (.ok fun source ↦ ?_)
        exact (write_alike hpath source options).bind fun r r' hr ↦ .pure hr.2

theorem locked_alike {body : Time → Objects → Option Err × Objects}
    (h : ∀ now now' objects objects', AgreeOn K objects objects' →
      (body now objects).1 = (body now' objects').1 ∧
        AgreeOn K (body now objects).2 (body now' objects').2) :
    Alike order (AgreeOn K) Eq (locked body) (locked body) := by
  refine alike_ctxErr.bind ?_
  rintro err _ rfl
  cases err with
  | some err => exact .pure rfl
  | none => exact alike_clock.bind fun now now' _ ↦ alike_modify (h now now')

theorem delete_alike (hpath : path.value ∈ K) :
    Alike order (AgreeOn K) Eq (delete path) (delete path) := by
  refine locked_alike fun now now' objects objects' h ↦ ?_
  unfold deleteLocked
  rcases h.lookup hpath with ⟨hl, hl'⟩ | ⟨object, object', hl, hl', -⟩
  · rw [hl, hl']
    exact ⟨rfl, h⟩
  · rw [hl, hl']
    exact ⟨rfl, h.erase _⟩

theorem copy_alike {source destination : Path} (hs : source.value ∈ K) (hd : destination.value ∈ K)
    (options : OverwriteOptions) :
    Alike order (AgreeOn K) Eq (copy source destination options)
      (copy source destination options) := by
  refine locked_alike fun now now' objects objects' h ↦ ?_
  have hsome : (objects.lookup destination.value).isSome =
      (objects'.lookup destination.value).isSome := by
    simpa only [Option.isSome_map] using congrArg Option.isSome (h _ hd)
  unfold copyLocked
  rcases h.lookup hs with ⟨hl, hl'⟩ | ⟨object, object', hl, hl', heq⟩
  · rw [hl, hl']
    exact ⟨rfl, h⟩
  · rw [hl, hl', hsome]
    dsimp only
    split
    · exact ⟨rfl, h⟩
    · exact ⟨rfl, h.insert _ heq⟩

theorem move_alike {source destination : Path} (hs : source.value ∈ K) (hd : destination.value ∈ K)
    (options : OverwriteOptions) :
    Alike order (AgreeOn K) Eq (move source destination options)
      (move source destination options) := by
  refine locked_alike fun now now' objects objects' h ↦ ?_
  have hsome : (objects.lookup destination.value).isSome =
      (objects'.lookup destination.value).isSome := by
    simpa only [Option.isSome_map] using congrArg Option.isSome (h _ hd)
  unfold moveLocked
  rcases h.lookup hs with ⟨hl, hl'⟩ | ⟨object, object', hl, hl', heq⟩
  · rw [hl, hl']
    exact ⟨rfl, h⟩
  · rw [hl, hl', hsome]
    dsimp only
    split
    · exact ⟨rfl, h⟩
    · split
      · exact ⟨rfl, h⟩
      · have hinsert : AgreeOn K
            (objects.insert destination.value { object with modified := now })
            (objects'.insert destination.value { object' with modified := now' }) :=
          h.insert _ heq
        exact ⟨rfl, hinsert.erase _⟩

theorem touch_alike (hpath : path.value ∈ K) {change : Object → Object}
    (hchange : ∀ object, (change object).timeless = change object.timeless) :
    Alike order (AgreeOn K) Eq (locked (touchLocked path change))
      (locked (touchLocked path change)) := by
  refine locked_alike fun now now' objects objects' h ↦ ?_
  unfold touchLocked
  rcases h.lookup hpath with ⟨hl, hl'⟩ | ⟨object, object', hl, hl', heq⟩
  · rw [hl, hl']
    exact ⟨rfl, h⟩
  · rw [hl, hl']
    refine ⟨rfl, h.insert _ ?_⟩
    change (change object).timeless = (change object').timeless
    rw [hchange, hchange, heq]

theorem setVisibility_alike (hpath : path.value ∈ K) (visibility : Visibility) :
    Alike order (AgreeOn K) Eq (setVisibility path visibility) (setVisibility path visibility) := by
  unfold setVisibility
  split
  · exact .pure rfl
  · exact touch_alike hpath fun _ ↦ rfl

/-! ## Listing -/

/-- Objects that are not beneath the listed directory do not matter. -/
theorem collect_filter (pre : Str) (recursive : Bool) (pairs : List (Str × Object))
    (entriesByPath : EntryMap) :
    collect pre recursive pairs entriesByPath =
      collect pre recursive (pairs.filter fun q ↦ pre <+: q.1) entriesByPath := by
  induction pairs generalizing entriesByPath with
  | nil => rfl
  | cons q pairs ih =>
      obtain ⟨name, object⟩ := q
      by_cases hpre : pre <+: name
      · rw [List.filter_cons_of_pos (by simpa using hpre), collect, collect]
        congr 1
        funext found
        cases found with
        | none => exact ih _
        | some found => exact ih _
      · have hentry : entryFor pre recursive name object = pure none := by
          rw [entryFor, if_neg (mt List.isPrefixOf_iff_prefix.mp hpre)]
        rw [List.filter_cons_of_neg (by simpa using hpre), collect, hentry, pure_bind]
        exact ih _

/-- Two listings under construction with the same entries, up to modification
times. -/
def EntriesAlike (entriesByPath entriesByPath' : EntryMap) : Prop :=
  ∀ name, (entriesByPath.lookup name).map Entry.timeless =
    (entriesByPath'.lookup name).map Entry.timeless

theorem EntriesAlike.insert (h : EntriesAlike entriesByPath entriesByPath') (name : Str)
    {entry entry' : Entry} (heq : entry.timeless = entry'.timeless) :
    EntriesAlike (entriesByPath.insert name entry) (entriesByPath'.insert name entry') := by
  intro name'
  by_cases hne : name' = name
  · rw [hne, Finmap.lookup_insert, Finmap.lookup_insert, Option.map_some, Option.map_some, heq]
  · rw [Finmap.lookup_insert_of_ne _ hne, Finmap.lookup_insert_of_ne _ hne]
    exact h name'

theorem entryFor_alike {R : Objects → Objects → Prop} (pre : Str) (recursive : Bool) (name : Str)
    {object object' : Object} (heq : object.timeless = object'.timeless) :
    Alike order R (fun found found' ↦ found.map (Prod.map id Entry.timeless) =
        found'.map (Prod.map id Entry.timeless))
      (entryFor pre recursive name object) (entryFor pre recursive name object') := by
  have hcontent : object.content = object'.content := (congrArg Object.content heq :)
  unfold entryFor
  split
  · dsimp only
    split
    · refine (alike_mustParsePath _).bind ?_
      rintro path _ rfl
      exact .pure rfl
    · refine (alike_mustParsePath _).bind ?_
      rintro path _ rfl
      refine .pure ?_
      rw [hcontent]
      rfl
  · exact .pure rfl

/-- The loop of `List` over the same objects, up to modification times. -/
theorem collect_alike {R : Objects → Objects → Prop} (pre : Str) (recursive : Bool)
    {pairs pairs' : List (Str × Object)}
    (h : pairs.map (Prod.map id Object.timeless) = pairs'.map (Prod.map id Object.timeless))
    (hentries : EntriesAlike entriesByPath entriesByPath') :
    Alike order R EntriesAlike (collect pre recursive pairs entriesByPath)
      (collect pre recursive pairs' entriesByPath') := by
  induction pairs generalizing pairs' entriesByPath entriesByPath' with
  | nil =>
      obtain rfl : pairs' = [] := by simpa using h.symm
      exact .pure hentries
  | cons q pairs ih =>
      obtain ⟨q', rest', rfl, hq, hrest⟩ := List.map_eq_cons_iff.mp h.symm
      obtain ⟨name, object⟩ := q
      obtain ⟨name', object'⟩ := q'
      obtain ⟨rfl, heq⟩ := Prod.mk.inj hq
      refine (entryFor_alike pre recursive name' heq.symm).bind fun found found' hfound ↦ ?_
      cases found with
      | none =>
          cases found' with
          | none => exact ih hrest.symm hentries
          | some found' => simp at hfound
      | some found =>
          cases found' with
          | none => simp at hfound
          | some found' =>
              obtain ⟨key, entry⟩ := found
              obtain ⟨key', entry'⟩ := found'
              obtain ⟨rfl, hentry⟩ := Prod.mk.inj (Option.some.inj hfound)
              exact ih hrest.symm (hentries.insert key hentry)

theorem sortEntries_timeless (entries : List Entry) :
    (sortEntries entries).map Entry.timeless = sortEntries (entries.map Entry.timeless) :=
  List.map_insertionSort _ _ _ _ fun _ _ _ _ ↦ Iff.rfl

/-- Sorting and cutting the same entries, up to modification times. -/
theorem snapshot_timeless (iteration : IterOrder Str) (requested : Int)
    (h : EntriesAlike entriesByPath entriesByPath') :
    (snapshot iteration requested entriesByPath).timeless =
      (snapshot iteration requested entriesByPath').timeless := by
  have hentries : (sortEntries ((GoMap.range iteration entriesByPath).map Prod.snd)).map
        Entry.timeless =
      (sortEntries ((GoMap.range iteration entriesByPath').map Prod.snd)).map Entry.timeless := by
    have hsnd := congrArg (List.map Prod.snd) (GoMap.range_congr iteration h)
    rw [sortEntries_timeless, sortEntries_timeless]
    congr 1
    simpa only [List.map_map, Function.comp_def, Prod.map_snd] using hsnd
  have hlength := congrArg List.length hentries
  rw [List.length_map, List.length_map] at hlength
  simp only [snapshot, Listing.timeless, hlength, Listing.mk.injEq, and_true]
  split
  · rw [List.map_take, List.map_take, hentries]
  · exact hentries

/-- A name beneath a directory of the region is in the region. -/
theorem IsRegion.mem_of_isPrefix (hK : IsRegion K) {directory : Path} (hd : directory.value ∈ K)
    {name : Str} (h : directoryPrefix directory <+: name) : name ∈ K := by
  rw [directoryPrefix, if_pos (hK.ne_nil _ hd)] at h
  obtain ⟨rest, rfl⟩ := h
  rw [List.append_assoc]
  exact hK.closed _ hd rest

theorem list_alike (hK : IsRegion K) {directory : Path} (hd : directory.value ∈ K)
    (options : ListOptions) :
    Alike order (AgreeOn K) (SameUpTo Listing.timeless) (list directory options)
      (list directory options) := by
  refine alike_ctxErr.bind ?_
  rintro err _ rfl
  cases err with
  | some err => exact .pure ⟨rfl, rfl⟩
  | none =>
      dsimp only
      split
      · exact .pure ⟨rfl, rfl⟩
      · refine alike_ask.bind fun env env' henv ↦ alike_load.bind fun objects objects' h ↦ ?_
        rw [collect_filter, collect_filter _ _ (GoMap.range env'.objectsOrder objects'),
          henv.objectsOrder, henv.objectsOrder', henv.entriesOrder]
        have hpairs := GoMap.filter_range_congr order (directoryPrefix directory <+: ·)
          fun name hname ↦ h name (hK.mem_of_isPrefix hd hname)
        refine (collect_alike _ _ hpairs fun _ ↦ rfl).bind fun entries entries' hentries ↦ ?_
        exact .pure ⟨snapshot_timeless _ _ hentries, rfl⟩

/-- The adapter sees only the region it is asked about. -/
theorem backend_local (hK : IsRegion K) (hashes : Hashes) :
    (backend hashes).Local order (AgreeOn K) fun path ↦ path.value ∈ K where
  openPath _ hp := reading_alike_eq hp _ fun _ ↦ rfl
  openRange _ byteRange hp := openRange_alike hp byteRange
  write _ source options hp := write_alike hp source options
  openWriter _ options hp := openWriter_alike hp options
  delete _ hp := delete_alike hp
  list _ options hp := list_alike hK hp options
  stat _ hp := stat_alike hp
  copy _ _ options hs hd := copy_alike hs hd options
  move _ _ options hs hd := move_alike hs hd options
  setMetadata _ _ hp := touch_alike hp fun _ ↦ rfl
  checksum _ algorithm hp := reading_alike_eq hp _ fun _ ↦ by cases algorithm <;> rfl
  visibility _ hp := visibility_alike hp
  setVisibility _ visibility hp := setVisibility_alike hp visibility
  temporaryURL _ hsign := by simp [backend] at hsign

end GoFilesystem.Memory
