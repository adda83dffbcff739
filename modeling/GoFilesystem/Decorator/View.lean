import GoFilesystem.Agreement
import GoFilesystem.Decorator.Confinement
import GoFilesystem.Memory.Keys
import GoFilesystem.Memory.Listing

/-!
# A prefixed view as a store of its own

A decorator with a prefix over an in-memory adapter should look like an
in-memory adapter that holds the objects beneath the prefix under their names
without it.  `View` relates the two maps; every method keeps it and returns the
same on both sides (`decorate_agrees`).  A listing returns the same if the two
maps are visited in corresponding orders: the names beneath the prefix keep
their order when the prefix is stripped, so sorting and cutting commute with
stripping.

There is one exception.  A decorator that computes checksums itself rejects an
unknown algorithm before it looks at the object, the in-memory adapter
afterwards.
-/

namespace GoFilesystem.Decorator

open Go Method Memory

/-- Without the prefix, `objects` beneath `prefixPath` are `objects'`; elsewhere
they are `base`. -/
structure View (prefixPath : Path) (base objects objects' : Objects) : Prop where
  stripped : ∀ name, objects'.lookup name = objects.lookup (prefixPath.value ++ slash :: name)
  keys : KeysValid objects
  keys' : KeysValid objects'
  outside : ∀ name, ¬Beneath prefixPath name → objects.lookup name = base.lookup name

variable {prefixPath path : Path} {base objects objects' : Objects} {config : Config}

theorem View.lookup (h : View prefixPath base objects objects') (hpref : prefixPath ≠ .root)
    (hpath : path ≠ .root) :
    objects.lookup (internalPath prefixPath path).value = objects'.lookup path.value := by
  rw [h.stripped, internalPath_value hpref hpath]

/-- Storing under corresponding names. -/
theorem View.insert (h : View prefixPath base objects objects') (hpref : prefixPath ≠ .root)
    (hpath : path ≠ .root) (stored : Object) :
    View prefixPath base (objects.insert (internalPath prefixPath path).value stored)
      (objects'.insert path.value stored) where
  stripped name := by
    rw [internalPath_value hpref hpath]
    by_cases heq : name = path.value
    · rw [heq, Finmap.lookup_insert, Finmap.lookup_insert]
    · rw [Finmap.lookup_insert_of_ne _ heq, Finmap.lookup_insert_of_ne _ (by simpa using heq),
        h.stripped]
  keys := h.keys.insert (Path.normalForm (internalPath_ne_root (.inr hpath))) stored
  keys' := h.keys'.insert (Path.normalForm hpath) stored
  outside name hname := by
    have hne : name ≠ (internalPath prefixPath path).value := by
      rintro rfl
      exact hname (beneath_internalPath hpref hpath)
    rw [Finmap.lookup_insert_of_ne _ hne, h.outside name hname]

/-- Removing corresponding names. -/
theorem View.erase (h : View prefixPath base objects objects') (hpref : prefixPath ≠ .root)
    (hpath : path ≠ .root) :
    View prefixPath base (objects.erase (internalPath prefixPath path).value)
      (objects'.erase path.value) where
  stripped name := by
    rw [internalPath_value hpref hpath]
    by_cases heq : name = path.value
    · rw [heq, Finmap.lookup_erase, Finmap.lookup_erase]
    · rw [Finmap.lookup_erase_ne heq, Finmap.lookup_erase_ne (by simpa using heq), h.stripped]
  keys := h.keys.erase _
  keys' := h.keys'.erase _
  outside name hname := by
    have hne : name ≠ (internalPath prefixPath path).value := by
      rintro rfl
      exact hname (beneath_internalPath hpref hpath)
    rw [Finmap.lookup_erase_ne hne, h.outside name hname]

/-! ## Calls on the two sides -/

structure SameContext (env env' : Env) : Prop where
  ctx : env.ctx = env'.ctx
  now : env.now = env'.now

/-- Frames over a view; what observers were told does not matter. -/
structure FrameView (prefixPath : Path) (base : Objects) (frame frame' : Frame Objects) : Prop where
  store : View prefixPath base frame.store frame'.store
  polls : frame.polls = frame'.polls

section Calls

variable {α β : Type} {V : α → β → Prop}

/-- The two calls do the same on the two sides. -/
abbrev Sees (prefixPath : Path) (base : Objects) (V : α → β → Prop) (x : Method Objects α)
    (y : Method Objects β) : Prop :=
  Call.Related SameContext (FrameView prefixPath base) V x y

theorem sees_ctxErr : Sees prefixPath base Eq ctxErr ctxErr := by
  intro env env' frame frame' henv hframe
  refine ⟨?_, hframe.store, congrArg (· + 1) hframe.polls⟩
  rw [henv.ctx, hframe.polls]

theorem sees_clock : Sees prefixPath base Eq clock clock :=
  fun _ _ _ _ henv hframe ↦ ⟨henv.now, hframe⟩

theorem sees_load : Sees prefixPath base (View prefixPath base) load load :=
  fun _ _ _ _ _ hframe ↦ ⟨hframe.store, hframe⟩

theorem sees_modify {f : Objects → α × Objects} {g : Objects → β × Objects}
    (h : ∀ objects objects', View prefixPath base objects objects' →
      V (f objects).1 (g objects').1 ∧ View prefixPath base (f objects).2 (g objects').2) :
    Sees prefixPath base V (modify f) (modify g) := by
  intro env env' frame frame' _ hframe
  obtain ⟨hv, hview⟩ := h _ _ hframe.store
  exact ⟨hv, hview, hframe.polls⟩

/-- Observers see the calls of one side only. -/
theorem observeCall_outcome {operation : Operation} {path destination : Path}
    {errOf : α → Option Err} {x : Method Objects α} {y : Method Objects β} {env env' : Env}
    {frame frame' : Frame Objects}
    (h : Call.RelOutcome V (FrameView prefixPath base) (x env frame) (y env' frame')) :
    Call.RelOutcome V (FrameView prefixPath base)
      (observeCall config operation path destination errOf x env frame) (y env' frame') := by
  rw [← Option.bind_fun_some (y env' frame')]
  refine h.bind fun a b s t hv hs ↦ ?_
  dsimp only
  split
  · exact ⟨hv, hs.store, hs.polls⟩
  · exact ⟨hv, hs⟩

theorem observeCall_sees {operation : Operation} {path destination : Path} {errOf : α → Option Err}
    {x : Method Objects α} {y : Method Objects β} (h : Sees prefixPath base V x y) :
    Sees prefixPath base V (observeCall config operation path destination errOf x) y :=
  fun env env' frame frame' henv hframe ↦
    observeCall_outcome (h env env' frame frame' henv hframe)

/-- The same function of what both sides return. -/
theorem map_sees {γ δ : Type} {W : γ → δ → Prop} {x : Method Objects (α × Option Err)}
    {y : Method Objects (β × Option Err)} {f : α → γ} {g : β → δ}
    (h : Sees prefixPath base (Agree V) x y)
    (hfg : ∀ a b, V a b → W (f a) (g b)) :
    Sees prefixPath base (Agree W) (x >>= fun r ↦ pure (f r.1, r.2))
      (y >>= fun r ↦ pure (g r.1, r.2)) := by
  refine h.bind fun r r' hr ↦ .pure ?_
  cases hr with
  | ok hv => exact .ok (hfg _ _ hv)
  | error herr => exact .error herr

end Calls

/-- The metadata of an object, but for its path. -/
def SameButPath (path : Path) (metadata metadata' : Metadata) : Prop :=
  { metadata with path } = metadata'

theorem withPath_sees {x y : Method Objects (Metadata × Option Err)}
    (h : Sees prefixPath base (Agree (SameButPath path)) x y) :
    Sees prefixPath base (Agree Eq)
      (do let (metadata, err) ← x; return ({ metadata with path }, err)) y := by
  rw [← bind_pure y]
  exact map_sees (f := fun metadata ↦ { metadata with path }) (g := id) h fun _ _ ↦ id

/-! ## Methods on one path -/

section Methods

variable (hpref : prefixPath ≠ .root) (hpath : path ≠ .root)

include hpref hpath

/-- A read of an object returns the same if what it returns of the object is. -/
theorem reading_sees {α β : Type} {V : α → β → Prop} {zero : α} {zero' : β}
    {body : Object → α × Option Err} {body' : Object → β × Option Err}
    (h : ∀ stored, Agree V (body stored) (body' stored)) :
    Sees prefixPath base (Agree V) (reading (internalPath prefixPath path) zero body)
      (reading path zero' body') := by
  refine sees_ctxErr.bind ?_
  rintro err _ rfl
  cases err with
  | some err => exact .pure (.error (.refl err))
  | none =>
      refine sees_load.bind fun objects objects' hview ↦ ?_
      rw [hview.lookup hpref hpath]
      cases objects'.lookup path.value with
      | none => exact .pure (.error fun _ ↦ rfl)
      | some stored => exact .pure (h stored)

theorem openRange_sees (byteRange : ByteRange) :
    Sees prefixPath base (Agree Eq) (openRange (internalPath prefixPath path) byteRange)
      (openRange path byteRange) := by
  unfold openRange
  split
  · exact .pure (.of_eq rfl)
  · exact reading_sees hpref hpath fun _ ↦ .of_eq rfl

theorem stat_sees : Sees prefixPath base (Agree (SameButPath path))
    (stat (internalPath prefixPath path)) (stat path) :=
  reading_sees hpref hpath fun _ ↦ .ok rfl

theorem visibility_sees : Sees prefixPath base (Agree Eq)
    (visibility (internalPath prefixPath path)) (visibility path) := by
  refine map_sees (stat_sees hpref hpath) ?_
  rintro metadata _ rfl
  rfl

theorem publish_sees (ifNoneMatch : Bool) (stored : Object)
    (h : View prefixPath base objects objects') :
    SameError (publish (internalPath prefixPath path) ifNoneMatch stored objects).1
        (publish path ifNoneMatch stored objects').1 ∧
      View prefixPath base (publish (internalPath prefixPath path) ifNoneMatch stored objects).2
        (publish path ifNoneMatch stored objects').2 := by
  unfold publish
  rw [h.lookup hpref hpath]
  split
  · exact ⟨.some fun _ ↦ rfl, h⟩
  · exact ⟨.none, h.insert hpref hpath stored⟩

theorem write_sees (source : Source) (options : WriteOptions) :
    Sees prefixPath base (Agree (SameButPath path))
      (write (internalPath prefixPath path) source options) (write path source options) := by
  unfold write
  rw [if_neg (mt Path.isRoot_iff.mp (internalPath_ne_root (.inr hpath))),
    if_neg (mt Path.isRoot_iff.mp hpath)]
  cases normalizeVisibility options.visibility with
  | error err => exact .pure (.error (.refl err))
  | ok visibility =>
      refine (related_copyReads sees_ctxErr source source.reads []).bind ?_
      rintro copied _ rfl
      cases copied with
      | error err => exact .pure (.error (.refl err))
      | ok content =>
          refine sees_ctxErr.bind ?_
          rintro err _ rfl
          cases err with
          | some err => exact .pure (.error (.refl err))
          | none =>
              refine sees_clock.bind ?_
              rintro now _ rfl
              refine (sees_modify fun _ _ ↦ publish_sees hpref hpath _ _).bind
                fun err err' herr ↦ ?_
              cases herr with
              | none => exact .pure (.ok rfl)
              | some herr => exact .pure (.error herr)

theorem openWriter_sees (options : WriteOptions) :
    Sees prefixPath base (OpensAgreeing SameContext (FrameView prefixPath base))
      (openWriter (internalPath prefixPath path) options) (openWriter path options) := by
  refine sees_ctxErr.bind ?_
  rintro err _ rfl
  cases err with
  | some err => exact .pure (.error (.refl err))
  | none =>
      dsimp only
      rw [if_neg (mt Path.isRoot_iff.mp (internalPath_ne_root (.inr hpath))),
        if_neg (mt Path.isRoot_iff.mp hpath)]
      refine .pure (.ok fun source ↦
        (write_sees hpref hpath source options).bind fun r r' hr ↦ .pure ?_)
      cases hr with
      | ok _ => exact .none
      | error herr => exact .some herr

omit hpref hpath in
/-- A step under the write lock does the same if its bodies do. -/
theorem locked_sees {body body' : Time → Objects → Option Err × Objects}
    (h : ∀ now objects objects', View prefixPath base objects objects' →
      SameError (body now objects).1 (body' now objects').1 ∧
        View prefixPath base (body now objects).2 (body' now objects').2) :
    Sees prefixPath base SameError (locked body) (locked body') := by
  refine sees_ctxErr.bind ?_
  rintro err _ rfl
  cases err with
  | some err => exact .pure (.some (.refl err))
  | none =>
      refine sees_clock.bind ?_
      rintro now _ rfl
      exact sees_modify (h now)

theorem delete_sees :
    Sees prefixPath base SameError (delete (internalPath prefixPath path)) (delete path) := by
  refine locked_sees fun _ objects objects' h ↦ ?_
  unfold deleteLocked
  rw [h.lookup hpref hpath]
  cases objects'.lookup path.value with
  | none => exact ⟨.some fun _ ↦ rfl, h⟩
  | some stored => exact ⟨.none, h.erase hpref hpath⟩

theorem touchLocked_sees (change : Object → Object) (now : Time)
    (h : View prefixPath base objects objects') :
    SameError (touchLocked (internalPath prefixPath path) change now objects).1
        (touchLocked path change now objects').1 ∧
      View prefixPath base (touchLocked (internalPath prefixPath path) change now objects).2
        (touchLocked path change now objects').2 := by
  unfold touchLocked
  rw [h.lookup hpref hpath]
  cases objects'.lookup path.value with
  | none => exact ⟨.some fun _ ↦ rfl, h⟩
  | some stored => exact ⟨.none, h.insert hpref hpath _⟩

theorem setVisibility_sees (visibility : Visibility) :
    Sees prefixPath base SameError (setVisibility (internalPath prefixPath path) visibility)
      (setVisibility path visibility) := by
  unfold setVisibility
  cases normalizeVisibility visibility with
  | error err => exact .pure (.some (.refl err))
  | ok visibility => exact locked_sees fun now _ _ ↦ touchLocked_sees hpref hpath _ now

theorem copy_sees {destination : Path} (hdestination : destination ≠ .root)
    (options : OverwriteOptions) :
    Sees prefixPath base SameError
      (copy (internalPath prefixPath path) (internalPath prefixPath destination) options)
      (copy path destination options) := by
  refine locked_sees fun now objects objects' h ↦ ?_
  unfold copyLocked
  rw [h.lookup hpref hpath, h.lookup hpref hdestination]
  cases objects'.lookup path.value with
  | none => exact ⟨.some fun _ ↦ rfl, h⟩
  | some stored =>
      dsimp only
      split
      · exact ⟨.some fun _ ↦ rfl, h⟩
      · exact ⟨.none, h.insert hpref hdestination _⟩

theorem move_sees {destination : Path} (hdestination : destination ≠ .root)
    (options : OverwriteOptions) :
    Sees prefixPath base SameError
      (move (internalPath prefixPath path) (internalPath prefixPath destination) options)
      (move path destination options) := by
  refine locked_sees fun now objects objects' h ↦ ?_
  unfold moveLocked
  rw [h.lookup hpref hpath, h.lookup hpref hdestination]
  cases objects'.lookup path.value with
  | none => exact ⟨.some fun _ ↦ rfl, h⟩
  | some stored =>
      dsimp only
      split
      · exact ⟨.some fun _ ↦ rfl, h⟩
      · by_cases hsame : path = destination
        · rw [if_pos (congrArg _ hsame), if_pos hsame]
          exact ⟨.none, h⟩
        · rw [if_neg ((internalPath_injective prefixPath).ne hsame), if_neg hsame]
          exact ⟨.none, (h.insert hpref hdestination _).erase hpref hpath⟩

/-! ## Checksums -/

/-- The algorithms that a decorator computes itself. -/
def Computed : ChecksumAlgorithm → Prop
  | .md5 | .sha256 | .crc32c => True
  | .other _ => False

omit hpref hpath in
theorem digestOf_eq {hashes : Hashes} {algorithm : ChecksumAlgorithm} {sum : Str → Str}
    (h : digest hashes algorithm = some sum) (stored : Object) :
    digestOf hashes algorithm stored = (⟨algorithm, hexEncode (sum stored.content)⟩, none) := by
  cases algorithm with
  | md5 => cases h; rfl
  | sha256 => cases h; rfl
  | crc32c =>
      cases h
      rw [hexEncode_bigEndian]
      rfl
  | other text => contradiction

/-- Reading an object and digesting it is what the in-memory adapter does. -/
theorem streamChecksum_sees (hashes : Hashes) (hconfig : config.prefixPath = prefixPath)
    {algorithm : ChecksumAlgorithm} (halgorithm : Computed algorithm) :
    Sees prefixPath base (Agree Eq) (streamChecksum hashes config (backend hashes) path algorithm)
      (checksum hashes path algorithm) := by
  obtain ⟨sum, hsum⟩ : ∃ sum, digest hashes algorithm = some sum := by
    cases algorithm with
    | other text => exact halgorithm.elim
    | _ => exact ⟨_, rfl⟩
  have hread : Sees prefixPath base (Agree fun stream checksum ↦
      ∃ content, stream = bytesReader content ∧ checksum = ⟨algorithm, hexEncode (sum content)⟩)
      (openPath (internalPath prefixPath path)) (checksum hashes path algorithm) := by
    refine reading_sees hpref hpath fun stored ↦ ?_
    rw [digestOf_eq hsum]
    exact .ok ⟨stored.content, rfl, rfl⟩
  unfold streamChecksum
  rw [hsum, ← bind_pure (checksum hashes path algorithm)]
  dsimp only
  rw [internal_bind, hconfig]
  refine hread.bind fun r r' hr ↦ ?_
  cases hr with
  | error herr => exact .pure (.error herr)
  | ok h =>
      obtain ⟨content, rfl, rfl⟩ := h
      exact .pure (.ok rfl)

end Methods

/-! ## Listing -/

def lift (prefixPath : Path) (name : Str) : Str := prefixPath.value ++ slash :: name

def liftEntry (prefixPath : Path) (entry : Entry) : Entry :=
  { entry with path := internalPath prefixPath entry.path }

theorem lift_strictMono (prefixPath : Path) : StrictMono (lift prefixPath) := by
  intro name name' h
  have hlt : (prefixPath.value ++ [slash]) ++ name < (prefixPath.value ++ [slash]) ++ name' :=
    List.append_left_lt h
  simpa [lift] using hlt

theorem cutPrefix_eq_some_iff {name relative : Str} :
    cutPrefix (prefixPath.value ++ [slash]) name = some relative ↔
      name = lift prefixPath relative := by
  rw [cutPrefix_eq_some, lift, List.append_assoc]
  rfl

theorem directoryPrefix_internalPath (hpref : prefixPath ≠ .root) (directory : Path) :
    directoryPrefix (internalPath prefixPath directory) =
      lift prefixPath (directoryPrefix directory) := by
  unfold directoryPrefix lift
  rw [if_pos (Path.normalForm (internalPath_ne_root (.inl hpref))).ne_nil]
  by_cases hdirectory : directory = .root
  · rw [hdirectory, internalPath_root hpref]
    rfl
  · rw [internalPath_value hpref hdirectory, if_pos (Path.normalForm hdirectory).ne_nil]
    simp

section Records

variable {pre name : Str} {recursive : Bool}

theorem drop_lift (pre name : Str) :
    (lift prefixPath name).drop (lift prefixPath pre).length = name.drop pre.length := by
  simp [lift]

theorem listedName_lift :
    listedName (lift prefixPath pre) recursive (lift prefixPath name) =
      lift prefixPath (listedName pre recursive name) := by
  unfold listedName
  rw [drop_lift]
  split
  · simp [lift]
  · rfl

theorem lift_prefix_iff : lift prefixPath pre <+: lift prefixPath name ↔ pre <+: name := by
  unfold lift
  rw [List.prefix_append_right_inj, List.prefix_cons_inj]

/-- What is recorded beneath the prefix is what is recorded without it. -/
theorem recordOf_lift (hpref : prefixPath ≠ .root) (hname : NormalForm name) (stored : Object) :
    recordOf (lift prefixPath pre) recursive (lift prefixPath name, stored) =
      (recordOf pre recursive (name, stored)).map
        (Prod.map (lift prefixPath) (liftEntry prefixPath)) := by
  unfold recordOf
  by_cases hpre : pre <+: name
  · have hlisted := normalForm_listedName hname hpre recursive
    have hpath : (⟨lift prefixPath (listedName pre recursive name),
        .inr ((Path.normalForm hpref).append hlisted)⟩ : Path) =
        internalPath prefixPath ⟨listedName pre recursive name, .inr hlisted⟩ := by
      apply Path.ext
      rw [internalPath_value hpref fun h ↦ hlisted.ne_nil (congrArg Path.value h)]
      rfl
    have hparse : parsePath (lift prefixPath (listedName pre recursive name)) =
        .ok (internalPath prefixPath ⟨listedName pre recursive name, .inr hlisted⟩) := by
      rw [← hpath]
      exact ((Path.normalForm hpref).append hlisted).parsePath_eq
    simp only [lift_prefix_iff, if_pos hpre, listedName_lift, hparse, hlisted.parsePath_eq]
    have hentry : ∀ path, listedEntry (lift prefixPath pre) recursive (lift prefixPath name) stored
        (internalPath prefixPath path) =
          liftEntry prefixPath (listedEntry pre recursive name stored path) := by
      intro path
      unfold listedEntry
      rw [drop_lift]
      split <;> rfl
    simp only [Except.toOption, Option.map_some, Prod.map_apply, hentry]
  · simp only [lift_prefix_iff, if_neg hpre]
    rfl

/-- Nothing outside the prefix is recorded. -/
theorem recordOf_outside (h : cutPrefix (prefixPath.value ++ [slash]) name = none)
    (stored : Object) : recordOf (lift prefixPath pre) recursive (name, stored) = none := by
  refine if_neg ?_
  rintro ⟨rest, hrest : lift prefixPath pre ++ rest = name⟩
  have hsome : cutPrefix (prefixPath.value ++ [slash]) name = some (pre ++ rest) := by
    rw [cutPrefix_eq_some_iff, ← hrest]
    simp [lift]
  rw [h] at hsome
  contradiction

end Records

/-- The two orders visit the names beneath the prefix alike. -/
def SameVisit (prefixPath : Path) (env env' : Env) (objects objects' : Objects) : Prop :=
  env'.objectsOrder.enum objects'.keys =
    (env.objectsOrder.enum objects.keys).filterMap (cutPrefix (prefixPath.value ++ [slash]))

/-- Visited in increasing order, the two maps correspond. -/
theorem View.sameVisit (h : View prefixPath base objects objects') {env env' : Env}
    (henv : env.objectsOrder = (KeyOrder.increasing Str).toIterOrder)
    (henv' : env'.objectsOrder = (KeyOrder.increasing Str).toIterOrder) :
    SameVisit prefixPath env env' objects objects' := by
  unfold SameVisit
  rw [henv, henv']
  have hsorted : ((objects.keys.sort (· ≤ ·)).filterMap
      (cutPrefix (prefixPath.value ++ [slash]))).Pairwise (· < ·) := by
    refine (List.pairwise_filterMap ..).mpr ((Finset.sortedLT_sort _).pairwise.imp ?_)
    intro name name' hlt relative hrelative relative' hrelative'
    rw [cutPrefix_eq_some_iff.mp hrelative, cutPrefix_eq_some_iff.mp hrelative'] at hlt
    exact (lift_strictMono prefixPath).lt_iff_lt.mp hlt
  refine List.Perm.eq_of_pairwise (fun _ _ _ _ ↦ le_antisymm) (Finset.pairwise_sort _ _)
    (hsorted.imp le_of_lt) ?_
  refine (List.perm_ext_iff_of_nodup (Finset.sort_nodup _ _) (hsorted.imp ne_of_lt)).mpr fun a ↦ ?_
  have hmem : a ∈ objects' ↔ lift prefixPath a ∈ objects := by
    rw [← Finmap.lookup_isSome, ← Finmap.lookup_isSome, h.stripped]
    rfl
  simp only [List.mem_filterMap, Finset.mem_sort, Finmap.mem_keys, cutPrefix_eq_some_iff, hmem]
  constructor
  · exact fun ha ↦ ⟨_, ha, rfl⟩
  · rintro ⟨_, ha, rfl⟩
    exact ha

section Listings

variable {env env' : Env} (hpref : prefixPath ≠ .root)
  (hview : View prefixPath base objects objects')
  (hvisit : SameVisit prefixPath env env' objects objects')

include hpref hview hvisit

/-- The records of the two listings. -/
theorem records_eq (pre : Str) (recursive : Bool) :
    (GoMap.range env.objectsOrder objects).filterMap (recordOf (lift prefixPath pre) recursive) =
      ((GoMap.range env'.objectsOrder objects').filterMap (recordOf pre recursive)).map
        (Prod.map (lift prefixPath) (liftEntry prefixPath)) := by
  unfold GoMap.range
  rw [hvisit, List.map_filterMap, List.filterMap_filterMap, List.filterMap_filterMap,
    List.filterMap_filterMap]
  refine List.filterMap_congr fun name _ ↦ ?_
  cases hcut : cutPrefix (prefixPath.value ++ [slash]) name with
  | none =>
      cases objects.lookup name with
      | none => rfl
      | some stored => exact recordOf_outside hcut stored
  | some relative =>
      obtain rfl := cutPrefix_eq_some_iff.mp hcut
      have hlookup : objects'.lookup relative = objects.lookup (lift prefixPath relative) :=
        hview.stripped relative
      cases hstored : objects'.lookup relative with
      | none => simp [← hlookup, hstored]
      | some stored =>
          simp only [← hlookup, hstored, Option.map_some, Option.bind_some]
          exact recordOf_lift hpref (hview.keys' relative stored hstored) stored

/-- The entries shown are the same, beneath the prefix. -/
theorem sortedEntries_eq (limit : Int) (pre : Str) (recursive : Bool) :
    sortedEntries limit (listing env.objectsOrder (lift prefixPath pre) recursive objects) =
      (sortedEntries limit (listing env'.objectsOrder pre recursive objects')).map
        (liftEntry prefixPath) := by
  unfold sortedEntries listing
  rw [records_eq hpref hview hvisit]
  generalize (GoMap.range env'.objectsOrder objects').filterMap (recordOf pre recursive) = records
  rw [GoMap.keys_insertAll_map, sort_image (lift_strictMono prefixPath), shown_map,
    List.filterMap_map, List.map_filterMap]
  refine List.filterMap_congr fun name _ ↦ ?_
  exact GoMap.lookup_insertAll_map (lift_strictMono prefixPath).injective _ _ _

omit hpref hview hvisit in
/-- The iterator strips the prefix again. -/
theorem externalEntries_lift (entries : List Entry) :
    externalEntries prefixPath none (entries.map (liftEntry prefixPath)) = { entries } := by
  induction entries with
  | nil => rfl
  | cons entry entries ih =>
      have hpath : externalPath prefixPath (liftEntry prefixPath entry).path = .ok entry.path :=
        externalPath_eq_ok_iff.mpr rfl
      rw [List.map_cons, externalEntries, hpath]
      dsimp only
      rw [ih]
      rfl

end Listings

/-- Orders that correspond for the listing of related frames. -/
def FramesVisited (prefixPath : Path) (env env' : Env) (frame frame' : Frame Objects) : Prop :=
  SameVisit prefixPath env env' frame.store frame'.store

theorem list_sees (hpref : prefixPath ≠ .root) (directory : Path) (options : ListOptions)
    {env env' : Env} {frame frame' : Frame Objects} (henv : SameContext env env')
    (hvisit : FramesVisited prefixPath env env' frame frame')
    (hframe : FrameView prefixPath base frame frame') :
    Call.RelOutcome (Agree Listing.Same) (FrameView prefixPath base)
      ((do match ← list (internalPath prefixPath directory) options with
          | (_, some err) => return ({}, some err)
          | (inner, none) => return (externalEntries prefixPath inner.err inner.entries, none) :
        Method Objects (Listing × Option Err)) env frame)
      (list directory options env' frame') := by
  have hend : FrameView prefixPath base { frame with polls := frame.polls + 1 }
      { frame' with polls := frame'.polls + 1 } :=
    ⟨hframe.store, congrArg (· + 1) hframe.polls⟩
  have hctx : env'.ctx frame'.polls = env.ctx frame.polls := by rw [henv.ctx, hframe.polls]
  cases hlive : env.ctx frame.polls with
  | some err =>
      rw [hlive] at hctx
      simp only [list, Call.bind_apply, ctxErr_apply, hlive, hctx]
      exact ⟨.error (.refl _), hend⟩
  | none =>
      rw [hlive] at hctx
      by_cases hlimit : 0 ≤ options.limit
      · rw [list_eq hframe.store.keys' hctx hlimit, Call.bind_apply,
          list_eq hframe.store.keys hlive hlimit, directoryPrefix_internalPath hpref,
          sortedEntries_eq hpref hframe.store hvisit, Option.bind_some]
        dsimp only
        rw [externalEntries_lift]
        exact ⟨.ok (.refl _), hend⟩
      · have hnegative : options.limit < 0 := by omega
        simp only [list, Call.bind_apply, ctxErr_apply, hlive, hctx, if_pos hnegative]
        exact ⟨.error (.refl _), hend⟩

/-! ## The adapters -/

/-- The operations that a view answers like a store of its own: objects are
named by paths other than the root, and a decorator that computes checksums
itself is asked for algorithms it knows. -/
def Viewable (config : Config) : Op → Prop
  | .openPath path | .openRange path _ | .write path _ _ | .openWriter path _ | .delete path
  | .stat path | .setMetadata path _ | .visibility path | .setVisibility path _ => path ≠ .root
  | .copy source destination _ | .move source destination _ =>
    source ≠ .root ∧ destination ≠ .root
  | .checksum path algorithm => path ≠ .root ∧ (config.checksums = true → Computed algorithm)
  | .list _ _ | .closeWriter _ _ => True
  | .temporaryURL _ _ _ => False

/-- The decorated adapter returns what an adapter over the stripped objects
returns. -/
theorem decorate_agrees (hashes : Hashes) (hpref : config.prefixPath ≠ .root)
    (hwritable : config.readOnly = false) (hretry : config.retry = none) (base : Objects) :
    (decorate hashes config (backend hashes)).Agrees SameContext (FramesVisited config.prefixPath)
      (FrameView config.prefixPath base) (Viewable config) (backend hashes) := by
  -- without a policy and without a guard, a method maps its path and calls the backend
  have hretryCall : ∀ {α : Type} (zero : α) (call : Method Objects (α × Option Err)),
      retryCall config zero call = call := by
    intro α zero call
    rw [retryCall, hretry]
  have hguarded : ∀ {α : Type} (capability : Capability) (operation : Operation) (reject : Err → α)
      (call : Method Objects α), guarded config capability operation reject call = call := by
    intro α capability operation reject call
    rw [guarded, hwritable]
    rfl
  have hroot : ∀ {path : Path}, path ≠ .root → ¬path.isRoot = true :=
    fun h ↦ mt Path.isRoot_iff.mp h
  exact {
    openPath := fun path hpath ↦ by
      refine observeCall_sees ?_
      rw [hretryCall, internal_bind]
      exact reading_sees hpref hpath fun _ ↦ .of_eq rfl
    openRange := fun path byteRange hpath ↦ by
      refine observeCall_sees ?_
      rw [hretryCall, internal_bind]
      exact openRange_sees hpref hpath byteRange
    write := fun path source options hpath ↦ by
      refine observeCall_sees ?_
      rw [hguarded, if_neg (hroot hpath), internal_bind]
      exact withPath_sees (write_sees hpref hpath source options)
    openWriter := fun path options hpath ↦ by
      refine observeCall_sees ?_
      rw [hguarded, if_neg (hroot hpath), internal_bind]
      exact openWriter_sees hpref hpath options
    delete := fun path hpath ↦ by
      refine observeCall_sees ?_
      rw [hguarded, internal_bind]
      exact delete_sees hpref hpath
    list := fun directory options _ env env' frame frame' henv hvisit hframe ↦ by
      refine observeCall_outcome ?_
      rw [hretryCall, internal_bind]
      exact list_sees hpref directory options henv hvisit hframe
    stat := fun path hpath ↦ by
      refine observeCall_sees ?_
      rw [hretryCall, internal_bind]
      exact withPath_sees (stat_sees hpref hpath)
    copy := fun source destination options hpaths ↦ by
      refine observeCall_sees ?_
      rw [hguarded, internal_bind, internal_bind]
      exact copy_sees hpref hpaths.1 hpaths.2 options
    move := fun source destination options hpaths ↦ by
      refine observeCall_sees ?_
      rw [hguarded, internal_bind, internal_bind]
      exact move_sees hpref hpaths.1 hpaths.2 options
    setMetadata := fun path metadata hpath ↦ by
      refine observeCall_sees ?_
      rw [hguarded, internal_bind]
      exact locked_sees fun now _ _ ↦ touchLocked_sees hpref hpath _ now
    checksum := fun path algorithm hop ↦ by
      refine observeCall_sees ?_
      rw [hretryCall]
      split
      · rename_i hchecksums
        exact streamChecksum_sees hpref hop.1 hashes rfl (hop.2 hchecksums)
      · rw [internal_bind]
        exact reading_sees hpref hop.1 fun _ ↦ .of_eq rfl
    visibility := fun path hpath ↦ by
      refine observeCall_sees ?_
      rw [hguarded, hretryCall, internal_bind]
      exact visibility_sees hpref hpath
    setVisibility := fun path visibility hpath ↦ by
      refine observeCall_sees ?_
      rw [hguarded, internal_bind]
      exact setVisibility_sees hpref hpath visibility
    temporaryURL := fun _ _ _ hop ↦ hop.elim }

/-- The environments of one step on the two sides. -/
def Corresponds (prefixPath : Path) (env env' : Env) (objects objects' : Objects) : Prop :=
  SameContext env env' ∧ SameVisit prefixPath env env' objects objects'

/-- **A prefixed view is a store of its own.**  Over objects whose keys are
paths, also without the prefix, every sequence of operations on the decorated
adapter returns what it returns on an adapter that holds the stripped objects,
in corresponding environments; the maps stay related, and nothing outside the
prefix changes.  The path that the decorator passes on never makes it panic, and
the way back is its inverse. -/
theorem prefixed_view (hashes : Hashes) (hpref : config.prefixPath ≠ .root)
    (hwritable : config.readOnly = false) (hretry : config.retry = none)
    {objects objects' : Objects} (hkeys : KeysValid objects)
    (hstripped : ∀ name stored, objects.lookup (config.prefixPath.value ++ slash :: name) =
      some stored → NormalForm name) (hview : ∀ name, objects'.lookup name =
      objects.lookup (config.prefixPath.value ++ slash :: name)) {steps : List (Op × Env × Env)}
    (hsteps : ∀ step ∈ steps, Viewable config step.1) :
    InStep (Corresponds config.prefixPath) (View config.prefixPath objects)
        (decorate hashes config (backend hashes)) (backend hashes) steps { store := objects }
        { store := objects' } ∧
      ∀ path, path ≠ .root → ∃ inner, (∀ σ, (internal config path : Method σ Path) = pure inner) ∧
        externalPath config.prefixPath inner = .ok path := by
  refine ⟨?_, fun path _ ↦ ⟨internalPath config.prefixPath path, fun _ ↦ internal_eq config path,
    externalPath_eq_ok_iff.mpr rfl⟩⟩
  have hkeys' : KeysValid objects' := fun name stored hl ↦ hstripped name stored (hview name ▸ hl)
  have hadmits : Admits (.keeping KeysValid) { creates := (· ≠ .root) } :=
    keysValid_admits fun _ h ↦ h
  refine inStep_of_agrees (decorate_agrees hashes hpref hwritable hretry objects)
    (backend_obeys hadmits hashes) id (fun h ↦ h.keys') ?_ id (fun h ↦ ⟨h, rfl⟩) (fun h ↦ h.store)
    hsteps ⟨hview, hkeys, hkeys', fun _ _ ↦ rfl⟩ .nil writersObey_nil
  intro op hop
  cases op with
  | copy source destination options => exact ⟨trivial, hop.2⟩
  | move source destination options => exact ⟨trivial, hop.2⟩
  | _ => trivial

def tenantObject : Objects :=
  Memory.new.insert (.lit "tenant/a") ⟨.lit "x", none, [], .visibilityPrivate, 0⟩

def strippedObject : Objects :=
  Memory.new.insert (.lit "a") ⟨.lit "x", none, [], .visibilityPrivate, 0⟩

theorem tenantObject_view :
    let env : Env := ⟨fun _ ↦ none, 0, (KeyOrder.increasing Str).toIterOrder,
      (KeyOrder.increasing Str).toIterOrder⟩
    let hashes : Hashes := ⟨id, id, fun _ ↦ 0⟩
    Corresponds tenant.prefixPath env env tenantObject strippedObject ∧
      InStep (Corresponds tenant.prefixPath) (View tenant.prefixPath tenantObject)
        (decorate hashes tenant (backend hashes)) (backend hashes) [(.list .root {}, env, env)]
        { store := tenantObject } { store := strippedObject } := by
  intro env hashes
  have hkeys : KeysValid tenantObject := keysValid_new.insert (by decide) _
  have hview : ∀ name, strippedObject.lookup name =
      tenantObject.lookup (tenant.prefixPath.value ++ slash :: name) := by
    intro name
    by_cases heq : name = .lit "a"
    · subst heq
      rfl
    · have hne : tenant.prefixPath.value ++ slash :: name ≠ .lit "tenant/a" := by
        have hlit : Str.lit "tenant/a" = tenant.prefixPath.value ++ slash :: Str.lit "a" := by
          decide
        rw [hlit]
        simpa using heq
      rw [strippedObject, tenantObject, Finmap.lookup_insert_of_ne _ heq,
        Finmap.lookup_insert_of_ne _ hne]
      rfl
  have hstripped : ∀ name stored, tenantObject.lookup (tenant.prefixPath.value ++ slash :: name) =
      some stored → NormalForm name := by
    intro name stored hl
    rw [← hview] at hl
    exact keysValid_new.insert (by decide) _ name stored hl
  have hrelated : View tenant.prefixPath tenantObject tenantObject strippedObject :=
    ⟨hview, hkeys, keysValid_new.insert (by decide) _, fun _ _ ↦ rfl⟩
  refine ⟨⟨⟨rfl, rfl⟩, hrelated.sameVisit rfl rfl⟩,
    (prefixed_view hashes (by decide) rfl rfl hkeys hstripped hview ?_).1⟩
  simp [Viewable]

/-- Asked for an unknown algorithm, a decorator that computes checksums itself
does not look for the object. -/
theorem unknownAlgorithm_differs :
    let env : Env := ⟨fun _ ↦ none, 0, (KeyOrder.increasing Str).toIterOrder,
      (KeyOrder.increasing Str).toIterOrder⟩
    let hashes : Hashes := ⟨id, id, fun _ ↦ 0⟩
    let config : Config := { tenant with checksums := true }
    config.prefixPath ≠ .root ∧ config.readOnly = false ∧ config.retry = none ∧
      KeysValid Memory.new ∧ ⟨.lit "a", .inr (by decide)⟩ ≠ Path.root ∧
      Corresponds config.prefixPath env env Memory.new Memory.new ∧
      View config.prefixPath Memory.new Memory.new Memory.new ∧
      ¬InStep (Corresponds config.prefixPath) (View config.prefixPath Memory.new)
        (decorate hashes config (backend hashes)) (backend hashes)
        [(.checksum ⟨.lit "a", .inr (by decide)⟩ (.other []), env, env)] { store := Memory.new }
        { store := Memory.new } := by
  intro env hashes config
  have hview : View config.prefixPath Memory.new Memory.new Memory.new :=
    ⟨fun _ ↦ rfl, keysValid_new, keysValid_new, fun _ _ ↦ rfl⟩
  have hvisit : Corresponds config.prefixPath env env Memory.new Memory.new :=
    ⟨⟨rfl, rfl⟩, hview.sameVisit rfl rfl⟩
  refine ⟨by decide, rfl, rfl, keysValid_new, by decide, hvisit, hview, ?_⟩
  rintro ⟨-, h⟩
  obtain ⟨result, events, next, result', events', next', hperform, hperform', hsame, -⟩ := h hvisit
  obtain ⟨rfl, -⟩ := Prod.mk.inj (Option.some.inj hperform)
  obtain ⟨rfl, -⟩ := Prod.mk.inj (Option.some.inj hperform')
  cases hsame.error with
  | some hclass => exact absurd (hclass .notFound) (by decide)

end GoFilesystem.Decorator
