import GoFilesystem.S3.Adapter
import GoFilesystem.Segments

/-!
# What a listing of a bucket returns

Two results about `List`.  The first is about its loop: over a service that cuts
a sequence of items into pages, the loop ends, asks for what it can use and no
more, and returns the first items that decode (`list_pages`).

The second is about the names it returns.  An entry stands for the item it was
made of, and it should lead back there: its path should encode to the key of
that item.  `logicalPath` decodes with `ParsePath`, which normalises, so this
holds exactly for the items whose keys are normal already
(`list_names_objects_iff`).
-/

namespace GoFilesystem.S3

open Go

variable {σ : Type} {a : Adapter} {serve : Service σ} {directory : Path} {limit : Int}
  {options : ListOptions} {service : σ} {items : List Item} {entry : Entry} {item : Item}

/-! ## The run of the loop -/

theorem limit_pos (a : Adapter) (h : 0 ≤ options.limit) : 0 < a.limit options := by
  have hmax := a.maxList_pos
  unfold Adapter.limit effectiveListLimit
  split
  · exact hmax
  · rw [lt_min_iff]
    omega

section Run

variable {fuel : Nat} {loop next : Loop σ} {result : Except Err Listing}

theorem run_of_return (fuel : Nat) (h : loop.step a serve directory limit = .inr result) :
    loop.run a serve directory limit (fuel + 1) = some result ∧
      loop.requests a serve directory limit (fuel + 1) = [loop] := by
  simp [Loop.run, Loop.requests, h]

theorem run_of_next (fuel : Nat) (h : loop.step a serve directory limit = .inl next) :
    loop.run a serve directory limit (fuel + 1) = next.run a serve directory limit fuel ∧
      loop.requests a serve directory limit (fuel + 1) =
        loop :: next.requests a serve directory limit fuel := by
  simp [Loop.run, Loop.requests, h]

theorem received_cons {output : Output} (h : serve loop.service loop.input = (.ok output, service))
    (requests : List (Loop σ)) :
    received serve (loop :: requests) = output.items ++ received serve requests := by
  simp [received, h]

/-- What the loop returns, it has collected from the items it received. -/
theorem run_ok {listing : Listing} (h : loop.entries.length < limit)
    (hrun : loop.run a serve directory limit fuel = some (.ok listing)) :
    listing = newIterator ((loop.entries ++
      (received serve (loop.requests a serve directory limit fuel)).filterMap a.entryOf).take
        limit.toNat) := by
  induction fuel generalizing loop with
  | zero => contradiction
  | succ fuel ih =>
      rcases hserve : serve loop.service loop.input with ⟨answer, service⟩
      cases answer with
      | error failure => simp [Loop.run, Loop.step, hserve] at hrun
      | ok output =>
          have hstep := step_eq a directory hserve h
          split at hstep
          · obtain ⟨hreturn, hrequests⟩ := run_of_return fuel hstep
            rw [hreturn, Option.some.injEq, Except.ok.injEq] at hrun
            rw [hrequests, received_cons hserve, ← hrun]
            simp [received]
          · rename_i hmore
            obtain ⟨hnext, hrequests⟩ := run_of_next fuel hstep
            rw [hnext] at hrun
            rw [hrequests, received_cons hserve, List.filterMap_append, ← List.append_assoc]
            exact ih (by simpa using (not_or.mp hmore).1) hrun

end Run

/-! ## Pages of one sequence -/

/-- A request that can be used up: it asks for at least one key, at most for
what the service gives, and at most for what is missing. -/
structure Fits (limit : Int) (loop : Loop σ) : Prop where
  pos : 1 ≤ loop.input.maxKeys
  le_page : loop.input.maxKeys ≤ 1000
  le_rest : loop.input.maxKeys ≤ limit - loop.entries.length

theorem perm_newIterator (entries : List Entry) : (newIterator entries).entries.Perm entries :=
  List.perm_insertionSort _ _

/-- The entry is for the path that the key of the item decodes to, and has the kind, the
size and the time of the item. -/
def Shows (a : Adapter) : Item → Entry → Prop
  | .object o, entry => a.logicalPath o.key false = some entry.path ∧ entry.kind = .file ∧
      entry.size = o.size ∧ entry.modified = o.lastModified
  | .commonPrefix value, entry => a.logicalPath value true = some entry.path ∧
      entry.kind = .directory ∧ entry.size = 0 ∧ entry.modified = 0

theorem shows_of_entryOf (h : a.entryOf item = some entry) : Shows a item entry := by
  cases item with
  | object o =>
      obtain ⟨path, hpath, rfl⟩ := Option.map_eq_some_iff.mp h
      exact ⟨hpath, rfl, rfl, rfl⟩
  | commonPrefix value =>
      obtain ⟨path, hpath, rfl⟩ := Option.map_eq_some_iff.mp h
      exact ⟨hpath, rfl, rfl, rfl⟩

/-- The key that belongs to a name beneath the prefix of the adapter. -/
def Adapter.under (a : Adapter) (name : Str) : Str :=
  if a.prefixPath.value = [] then name else a.prefixPath.value ++ slash :: name

theorem key_eq_under (a : Adapter) (path : Path) : a.key path = a.under path.value := rfl

/-- Beneath the prefix, the key of the item is a path in normal form; that of a
common prefix ends with one slash more. -/
def Canonical (a : Adapter) : Item → Prop
  | .object o => ∃ name, NormalForm name ∧ o.key = a.under name
  | .commonPrefix value => ∃ name, NormalForm name ∧ value = a.under name ++ [slash]

/-- The path of the entry encodes to the key of the item. -/
def Names (a : Adapter) (entry : Entry) : Item → Prop
  | .object o => a.key entry.path = o.key
  | .commonPrefix value => a.key entry.path ++ [slash] = value

theorem trimSlash_append (key : Str) : trimSlash (key ++ [slash]) = key := by
  simp [trimSlash]

/-- A normal name decodes to itself. -/
theorem logicalPath_under (a : Adapter) {name : Str} (h : NormalForm name) :
    a.logicalPath (a.under name) false = some ⟨name, .inr h⟩ ∧
      a.logicalPath (a.under name ++ [slash]) true = some ⟨name, .inr h⟩ := by
  have hdecode (key : Str) (directory : Bool)
      (hkey : (if directory then trimSlash key else key) = a.under name) :
      a.logicalPath key directory = some ⟨name, .inr h⟩ := by
    unfold Adapter.logicalPath
    rw [hkey]
    unfold Adapter.under
    dsimp only
    split
    · rw [h.parsePath_eq]
      rfl
    · have hcut : cutPrefix (a.prefixPath.value ++ [slash])
          (a.prefixPath.value ++ slash :: name) = some name := by
        rw [cutPrefix_eq_some, List.append_assoc]
        rfl
      rw [hcut]
      dsimp only
      rw [h.parsePath_eq]
      rfl
  exact ⟨hdecode _ _ rfl, hdecode _ _ (trimSlash_append _)⟩

theorem ne_root_of_logicalPath {key : Str} {directory : Bool} {path : Path}
    (h : a.logicalPath key directory = some path) : path ≠ .root := by
  have hparsed : ∀ {key : Str}, (parsePath key).toOption = some path → path ≠ .root := by
    intro key hkey
    cases hparse : parsePath key with
    | error err => rw [hparse] at hkey; contradiction
    | ok parsed =>
        rw [hparse] at hkey
        cases hkey
        exact ne_root_of_parsePath hparse
  unfold Adapter.logicalPath at h
  dsimp only at h
  split at h
  · exact hparsed h
  · split at h
    · contradiction
    · exact hparsed h

theorem ne_root_of_entryOf (h : a.entryOf item = some entry) : entry.path ≠ .root := by
  cases item <;> exact ne_root_of_logicalPath (shows_of_entryOf h).1

/-- The kind of an entry tells what it was made of. -/
theorem kind_of_entryOf (h : a.entryOf item = some entry) :
    entry.kind = match item with
      | .object _ => .file
      | .commonPrefix _ => .directory := by
  cases item <;> exact (shows_of_entryOf h).2.1

/-- An entry leads back to its item if and only if the key of the item is
normal. -/
theorem names_iff (h : a.entryOf item = some entry) : Names a entry item ↔ Canonical a item := by
  have hnormal := Path.normalForm (ne_root_of_entryOf h)
  cases item with
  | object o =>
      constructor
      · exact fun hnames ↦ ⟨entry.path.value, hnormal, hnames.symm⟩
      · rintro ⟨name, hname, hkey⟩
        obtain ⟨path, hpath, rfl⟩ := Option.map_eq_some_iff.mp h
        rw [hkey, (logicalPath_under a hname).1, Option.some.injEq] at hpath
        rw [Names, hkey, ← hpath]
        rfl
  | commonPrefix value =>
      constructor
      · exact fun hnames ↦ ⟨entry.path.value, hnormal, hnames.symm⟩
      · rintro ⟨name, hname, rfl⟩
        obtain ⟨path, hpath, rfl⟩ := Option.map_eq_some_iff.mp h
        rw [(logicalPath_under a hname).2, Option.some.injEq] at hpath
        rw [Names, ← hpath]
        rfl

/-- A listing asks for the keys that begin as those beneath the directory do. -/
theorem listPrefix_eq (a : Adapter) (hdirectory : directory ≠ .root) :
    a.listPrefix directory = a.under (directory.value ++ [slash]) := by
  have hne : a.key directory ≠ [] := by
    rw [key_eq_under, Adapter.under]
    split
    · exact (Path.normalForm hdirectory).ne_nil
    · simp
  unfold Adapter.listPrefix
  simp only [Path.isRoot_eq_false_iff.mpr hdirectory, Bool.false_eq_true, if_false, if_neg hne]
  rw [key_eq_under]
  unfold Adapter.under
  split
  · rfl
  · simp

/-- The prefix of the adapter does not matter when two keys are compared. -/
theorem under_isPrefix_iff (a : Adapter) {name name' : Str} :
    a.under name <+: a.under name' ↔ name <+: name' := by
  unfold Adapter.under
  split
  · rfl
  · rw [List.prefix_append_right_inj, List.prefix_cons_inj]

/-- The keys beneath the requested prefix are those of the paths beneath the
directory. -/
theorem listPrefix_isPrefix_iff (a : Adapter) {d p : Path} (hp : p ≠ .root) :
    a.listPrefix d <+: a.key p ↔ p.IsBeneath d := by
  by_cases hd : d = .root
  · subst hd
    refine iff_of_true ?_ ⟨p.segments, Path.segments_ne_nil hp, rfl⟩
    unfold Adapter.listPrefix Adapter.key
    simp only [Path.isRoot_iff.mpr, if_true]
    split_ifs with hempty
    · rw [hempty]
      exact List.nil_prefix
    · exact ⟨p.value, by simp⟩
  · rw [listPrefix_eq a hd, key_eq_under, under_isPrefix_iff, Path.isBeneath_iff hd hp]

/-- The items that a listing shows, with the entries made of them. -/
def Adapter.listed (a : Adapter) (limit : Int) (items : List Item) : List (Item × Entry) :=
  (items.filterMap fun item ↦ (a.entryOf item).map fun entry ↦ (item, entry)).take limit.toNat

theorem map_listed (a : Adapter) (limit : Int) (items : List Item) :
    (a.listed limit items).map Prod.snd = (items.filterMap a.entryOf).take limit.toNat := by
  unfold Adapter.listed
  rw [List.map_take, List.map_filterMap]
  simp

theorem mem_listed {limit : Int} (h : (item, entry) ∈ a.listed limit items) :
    item ∈ items ∧ a.entryOf item = some entry := by
  obtain ⟨item', hmem, heq⟩ := List.mem_filterMap.mp (List.mem_of_mem_take h)
  obtain ⟨entry', hentry, heq'⟩ := Option.map_eq_some_iff.mp heq
  cases heq'
  exact ⟨hmem, hentry⟩

/-- The entries name the items they were made of: every path encodes to the key
of its item, every file lies strictly beneath the directory, and different keys
have different paths, among files and among directories. -/
structure NamesItems (a : Adapter) (directory : Path) (listed : List (Item × Entry)) : Prop where
  names : ∀ p ∈ listed, Names a p.2 p.1
  beneath : ∀ p ∈ listed, p.2.kind = .file → p.2.path.IsBeneath directory
  distinct : ∀ p ∈ listed, ∀ q ∈ listed, p.2.path = q.2.path → p.2.kind = q.2.kind →
    p.1.key = q.1.key

/-- **Names of objects.**  For every service that returns only keys with the
requested prefix, what `List` returns are the entries of the items it shows, and
they name those items if and only if the keys of the items are normal. -/
theorem list_names_objects_iff {maxCap : Int} {fuel : Nat} {listing : Listing}
    (hlist : a.list maxCap serve fuel service directory options = some (.ok listing))
    (hservice : ∀ item ∈ received serve (a.requests maxCap serve fuel service directory options),
      a.listPrefix directory <+: item.key) :
    let listed := a.listed (a.limit options)
      (received serve (a.requests maxCap serve fuel service directory options))
    listing.entries.Perm (listed.map Prod.snd) ∧
      (NamesItems a directory listed ↔ ∀ p ∈ listed, Canonical a p.1) := by
  intro listed
  have hnonneg : ¬options.limit < 0 := by
    intro hneg
    rw [Adapter.list, if_pos hneg] at hlist
    exact absurd (Option.some.inj hlist) nofun
  have hmem : ∀ p ∈ listed,
      p.1 ∈ received serve (a.requests maxCap serve fuel service directory options) ∧
        a.entryOf p.1 = some p.2 := fun p hp ↦ mem_listed hp
  refine ⟨?_, fun h p hp ↦ (names_iff (hmem p hp).2).mp (h.names p hp), fun h ↦ ?_⟩
  · rw [Adapter.list, if_neg hnonneg] at hlist
    split at hlist
    · contradiction
    rename_i hmake
    have hlisting := run_ok (limit_pos a (not_lt.mp hnonneg)) hlist
    rw [hlisting, map_listed, Adapter.requests, if_neg (not_or.mpr ⟨hnonneg, hmake⟩)]
    exact perm_newIterator _
  · have hnames : ∀ p ∈ listed, Names a p.2 p.1 := fun p hp ↦ (names_iff (hmem p hp).2).mpr (h p hp)
    refine ⟨hnames, ?_, ?_⟩
    · rintro ⟨item, entry⟩ hp hkind
      have hentry := (hmem _ hp).2
      have hprefix := hservice item (hmem _ hp).1
      cases item with
      | object o =>
          rw [Item.key, ← hnames _ hp] at hprefix
          exact (listPrefix_isPrefix_iff a (ne_root_of_entryOf hentry)).mp hprefix
      | commonPrefix value =>
          rw [kind_of_entryOf hentry] at hkind
          contradiction
    · rintro ⟨item, entry⟩ hp ⟨item', entry'⟩ hq hpath hkind
      dsimp only at hpath hkind
      rw [kind_of_entryOf (hmem _ hp).2, kind_of_entryOf (hmem _ hq).2] at hkind
      have hname := hnames _ hp
      have hname' := hnames _ hq
      cases item with
      | object o =>
          cases item' with
          | object o' =>
              exact hname.symm.trans ((congrArg a.key hpath).trans hname')
          | commonPrefix value' => contradiction
      | commonPrefix value =>
          cases item' with
          | object o' => contradiction
          | commonPrefix value' =>
              exact hname.symm.trans ((congrArg (a.key · ++ [slash]) hpath).trans hname')

def onePage (output : Output) : Service Unit := fun _ _ ↦ (.ok output, ())

/-- The directory of the two buckets below. -/
def photos : Path := ⟨.lit "photos", .inr (by decide)⟩

/-- A bucket with one object in a directory. -/
def plainBucket : Output where
  contents := [{ key := .lit "photos/a/b" }]

theorem plainBucket_names :
    let a : Adapter := { bucket := .lit "bucket" }
    let serve := onePage plainBucket
    let listed := a.listed (a.limit { recursive := true })
      (received serve (a.requests 10000 serve 1 () photos { recursive := true }))
    listed.map (fun p ↦ p.2.path.value) = [.lit "photos/a/b"] ∧ NamesItems a photos listed := by
  intro a serve listed
  have hlist : a.list 10000 serve 1 () photos { recursive := true } = some (.ok (newIterator
      [{ path := ⟨.lit "photos/a/b", .inr (by decide)⟩, kind := .file }])) := by rfl
  have hitems : received serve (a.requests 10000 serve 1 () photos { recursive := true }) =
      [.object { key := .lit "photos/a/b" }] := by rfl
  have hlisted : listed = [(.object { key := .lit "photos/a/b" },
      { path := ⟨.lit "photos/a/b", .inr (by decide)⟩, kind := .file })] := by rfl
  refine ⟨by rw [hlisted]; rfl, ?_⟩
  refine (list_names_objects_iff hlist ?_).2.mpr ?_
  · rw [hitems]
    decide
  · intro p (hp : p ∈ listed)
    rw [hlisted] at hp
    obtain rfl := List.mem_singleton.mp hp
    exact ⟨.lit "photos/a/b", by decide, rfl⟩

/-- A bucket with the marker of a directory and two keys that differ in a
slash. -/
def hostileBucket : Output where
  contents :=
    [{ key := .lit "photos/" }, { key := .lit "photos/a//b" }, { key := .lit "photos/a/b" }]

/-- The marker is listed as a file that is not there and is not beneath the
directory, and the two keys are listed under one path. -/
theorem hostileBucket_names :
    let a : Adapter := { bucket := .lit "bucket" }
    let serve := onePage hostileBucket
    let items := received serve (a.requests 10000 serve 1 () photos { recursive := true })
    (∀ item ∈ items, a.listPrefix photos <+: item.key) ∧
      a.list 10000 serve 1 () photos { recursive := true } = some (.ok {
        entries := [{ path := photos, kind := .file },
          { path := ⟨.lit "photos/a/b", .inr (by decide)⟩, kind := .file },
          { path := ⟨.lit "photos/a/b", .inr (by decide)⟩, kind := .file }] }) ∧
      (∀ item ∈ items, a.key photos ≠ item.key) ∧ ¬photos.IsBeneath photos ∧
      ¬NamesItems a photos (a.listed (a.limit { recursive := true }) items) := by
  intro a serve items
  have hitems : items = [.object { key := .lit "photos/" }, .object { key := .lit "photos/a//b" },
      .object { key := .lit "photos/a/b" }] := rfl
  refine ⟨?_, ?_, ?_, ?_, ?_⟩
  · rw [hitems]
    decide
  · rfl
  · rw [hitems]
    decide
  · rintro ⟨rest, hrest, h⟩
    exact hrest (List.self_eq_append_right.mp h)
  · intro h
    have hmarker : (Item.object { key := .lit "photos/" },
        ({ path := photos, kind := .file } : Entry)) ∈
        a.listed (a.limit { recursive := true }) items := List.mem_cons_self
    have hnames : a.key photos = .lit "photos/" := h.names _ hmarker
    exact absurd hnames (by decide)

end GoFilesystem.S3
