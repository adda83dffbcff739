import GoFilesystem.Memory.Effects

/-!
# What a listing holds

`List` ranges over the objects, assigns one entry per object beneath the
directory to a second map, ranges over that map, sorts and cuts.  On keys that
are strings of paths this is a pure computation: `listing` is the second map,
and `list_eq` says that the result is read off it in the order of its keys.
The second iteration order has no influence on that.  The first one has: an
object that is also the directory of another object is assigned twice, and the
entry assigned last stays.
-/

namespace GoFilesystem.Memory

open Go Method

/-- The name under which `List` records a key beneath the prefix. -/
def listedName (pre : Str) (recursive : Bool) (name : Str) : Str :=
  match recursive, cut slash (name.drop pre.length) with
  | false, some (child, _) => pre ++ child
  | _, _ => name

def fileEntry (path : Path) (stored : Object) : Entry where
  path := path
  kind := .file
  size := stored.content.length
  modified := stored.modified

def directoryEntry (path : Path) : Entry where
  path := path
  kind := .directory

/-- The entry that `List` records for a key beneath the prefix. -/
def listedEntry (pre : Str) (recursive : Bool) (name : Str) (stored : Object) (path : Path) :
    Entry :=
  match recursive, cut slash (name.drop pre.length) with
  | false, some _ => directoryEntry path
  | _, _ => fileEntry path stored

/-- What `List` keeps of one stored object whose key is the string of a path. -/
def recordOf (pre : Str) (recursive : Bool) (p : Str × Object) : Option (Str × Entry) :=
  if pre <+: p.1 then
    (parsePath (listedName pre recursive p.1)).toOption.map fun path ↦
      (listedName pre recursive p.1, listedEntry pre recursive p.1 p.2 path)
  else none

def listing (order : IterOrder Str) (pre : Str) (recursive : Bool) (objects : Objects) : EntryMap :=
  GoMap.insertAll ((GoMap.range order objects).filterMap (recordOf pre recursive)) ∅

def listedNames (pre : Str) (recursive : Bool) (objects : Objects) : Finset Str :=
  (objects.keys.filter (pre <+: ·)).image (listedName pre recursive)

def shown {α : Type} (limit : Int) (entries : List α) : List α :=
  if limit = 0 then entries else entries.take limit.toNat

/-- What a listing shows of its entries: the first ones by key. -/
def sortedEntries (limit : Int) (entriesByPath : EntryMap) : List Entry :=
  (shown limit (entriesByPath.keys.sort (· ≤ ·))).filterMap entriesByPath.lookup

/-! ## The names of entries -/

variable {child key : Str} {entry : Entry}

section Names

variable {pre name : Str}

theorem listedName_child (h : slash ∉ child) (recursive : Bool) :
    listedName pre recursive (pre ++ child) = pre ++ child := by
  unfold listedName
  rw [List.drop_left, cut_eq_none.mpr h]
  cases recursive <;> rfl

theorem listedEntry_child (h : slash ∉ child) (recursive : Bool) (stored : Object) (path : Path) :
    listedEntry pre recursive (pre ++ child) stored path = fileEntry path stored := by
  unfold listedEntry
  rw [List.drop_left, cut_eq_none.mpr h]
  cases recursive <;> rfl

theorem cut_drop_nested {child rest : Str} (h : slash ∉ child) :
    cut slash ((pre ++ child ++ slash :: rest).drop pre.length) = some (child, rest) := by
  rw [List.append_assoc, List.drop_left, cut_append_cons h]

theorem listedName_nested (h : slash ∉ child) (rest : Str) :
    listedName pre false (pre ++ child ++ slash :: rest) = pre ++ child := by
  unfold listedName
  rw [cut_drop_nested h]

theorem listedEntry_nested (h : slash ∉ child) (rest : Str) (stored : Object) (path : Path) :
    listedEntry pre false (pre ++ child ++ slash :: rest) stored path =
      directoryEntry path := by
  unfold listedEntry
  rw [cut_drop_nested h]

@[simp] theorem listedEntry_path (pre : Str) (recursive : Bool) (name : Str) (stored : Object)
    (path : Path) : (listedEntry pre recursive name stored path).path = path := by
  unfold listedEntry
  split <;> rfl

/-- A key beneath the prefix is a child of the directory or lies beneath one. -/
theorem child_or_nested (h : pre <+: name) :
    (∃ child, slash ∉ child ∧ name = pre ++ child) ∨
      ∃ child rest, slash ∉ child ∧ name = pre ++ child ++ slash :: rest := by
  obtain ⟨remainder, rfl⟩ := h
  cases hcut : cut slash remainder with
  | none => exact .inl ⟨remainder, cut_eq_none.mp hcut, rfl⟩
  | some p =>
      obtain ⟨child, rest⟩ := p
      obtain ⟨rfl, hchild⟩ := cut_eq_some hcut
      exact .inr ⟨child, rest, hchild, (List.append_assoc ..).symm⟩

/-- The recorded name is the key itself, or the part of it before a slash. -/
theorem normalForm_listedName (h : NormalForm name) (hpre : pre <+: name) (recursive : Bool) :
    NormalForm (listedName pre recursive name) := by
  cases recursive with
  | true => exact h
  | false =>
      rcases child_or_nested hpre with ⟨child, hchild, rfl⟩ | ⟨child, rest, hchild, rfl⟩
      · rwa [listedName_child hchild]
      · rw [listedName_nested hchild]
        exact h.left

theorem recordOf_eq_some {recursive : Bool} {stored : Object} (h : NormalForm name) :
    recordOf pre recursive (name, stored) = some (key, entry) ↔
      pre <+: name ∧ listedName pre recursive name = key ∧ entry.path.value = key ∧
        listedEntry pre recursive name stored entry.path = entry := by
  unfold recordOf
  by_cases hpre : pre <+: name
  · have hlisted := normalForm_listedName h hpre recursive
    rw [if_pos hpre, hlisted.parsePath_eq]
    constructor
    · intro heq
      cases heq
      exact ⟨hpre, rfl, by rw [listedEntry_path], by rw [listedEntry_path]⟩
    · rintro ⟨-, rfl, hvalue, heq⟩
      have hpath : (⟨listedName pre recursive name, .inr hlisted⟩ : Path) = entry.path :=
        Path.ext hvalue.symm
      rw [Except.toOption, Option.map_some, hpath, heq]
  · simp [hpre]

end Names

/-! ## The loop over the objects -/

theorem entryFor_eq {name : Str} (h : NormalForm name) (pre : Str) (recursive : Bool)
    (stored : Object) :
    entryFor pre recursive name stored = pure (recordOf pre recursive (name, stored)) := by
  unfold entryFor recordOf
  by_cases hpre : pre <+: name
  · rw [if_pos (List.isPrefixOf_iff_prefix.mpr hpre), if_pos hpre,
      (normalForm_listedName h hpre recursive).parsePath_eq]
    cases recursive with
    | true => rw [h.mustParsePath_eq]; rfl
    | false =>
        rcases child_or_nested hpre with ⟨child, hchild, rfl⟩ | ⟨child, rest, hchild, rfl⟩
        · simp only [List.drop_left, cut_eq_none.mpr hchild, h.mustParsePath_eq,
            listedName_child hchild, listedEntry_child hchild]
          rfl
        · simp only [cut_drop_nested hchild, h.left.mustParsePath_eq, listedName_nested hchild,
            listedEntry_nested hchild]
          rfl
  · rw [if_neg (mt List.isPrefixOf_iff_prefix.mp hpre), if_neg hpre]

theorem collect_eq {pairs : List (Str × Object)} (h : ∀ p ∈ pairs, NormalForm p.1) (pre : Str)
    (recursive : Bool) (entriesByPath : EntryMap) :
    collect pre recursive pairs entriesByPath =
      pure (GoMap.insertAll (pairs.filterMap (recordOf pre recursive)) entriesByPath) := by
  induction pairs generalizing entriesByPath with
  | nil => rfl
  | cons p pairs ih =>
      obtain ⟨name, stored⟩ := p
      rw [List.forall_mem_cons] at h
      rw [collect, entryFor_eq h.1, pure_bind]
      cases hrecord : recordOf pre recursive (name, stored) with
      | none =>
          rw [List.filterMap_cons_none hrecord]
          exact ih h.2 entriesByPath
      | some record =>
          rw [List.filterMap_cons_some hrecord]
          exact ih h.2 _

/-! ## The entries -/

section Entries

variable {order : IterOrder Str} {pre : Str} {recursive : Bool} {objects : Objects}
  (hkeys : KeysValid objects)
include hkeys

/-- Every entry was recorded for some object. -/
theorem exists_of_listing (h : (listing order pre recursive objects).lookup key = some entry) :
    ∃ name stored, objects.lookup name = some stored ∧ pre <+: name ∧
      listedName pre recursive name = key ∧ entry.path.value = key ∧
        listedEntry pre recursive name stored entry.path = entry := by
  obtain ⟨⟨name, stored⟩, hmem, hrecord⟩ :=
    List.mem_filterMap.mp (GoMap.mem_of_lookup_insertAll h)
  have hl := GoMap.mem_range.mp hmem
  exact ⟨name, stored, hl, (recordOf_eq_some (hkeys name stored hl)).mp hrecord⟩

/-- Every object beneath the prefix has its name recorded. -/
theorem mem_listing :
    key ∈ listing order pre recursive objects ↔
      ∃ name ∈ objects, pre <+: name ∧ listedName pre recursive name = key := by
  constructor
  · intro h
    obtain ⟨entry, hentry⟩ := Finmap.mem_iff.mp h
    obtain ⟨name, stored, hl, hpre, hname, -⟩ := exists_of_listing hkeys hentry
    exact ⟨name, Finmap.mem_iff.mpr ⟨stored, hl⟩, hpre, hname⟩
  · rintro ⟨name, hname, hpre, rfl⟩
    obtain ⟨stored, hl⟩ := Finmap.mem_iff.mp hname
    have hnormal := hkeys name stored hl
    let path : Path := ⟨_, .inr (normalForm_listedName hnormal hpre recursive)⟩
    refine GoMap.mem_insertAll.mpr ⟨listedEntry pre recursive name stored path, ?_⟩
    refine List.mem_filterMap.mpr ⟨(name, stored), GoMap.mem_range.mpr hl, ?_⟩
    rw [recordOf_eq_some hnormal, listedEntry_path]
    exact ⟨hpre, rfl, rfl, rfl⟩

omit hkeys in
/-- The names of a listing do not depend on the order. -/
theorem keys_listing (order : IterOrder Str) (hkeys : KeysValid objects) :
    (listing order pre recursive objects).keys = listedNames pre recursive objects := by
  ext key
  rw [Finmap.mem_keys, mem_listing hkeys, listedNames]
  simp only [Finset.mem_image, Finset.mem_filter, Finmap.mem_keys, and_assoc]

end Entries

/-! ## The result -/

theorem take_filterMap {α β : Type} {f : α → Option β} (n : Nat) {l : List α}
    (h : ∀ a ∈ l, (f a).isSome = true) : (l.filterMap f).take n = (l.take n).filterMap f := by
  induction l generalizing n with
  | nil => simp
  | cons a l ih =>
      rw [List.forall_mem_cons] at h
      obtain ⟨b, hb⟩ := Option.isSome_iff_exists.mp h.1
      cases n with
      | zero => rfl
      | succ n =>
          rw [List.filterMap_cons_some hb, List.take_succ_cons, List.take_succ_cons,
            List.filterMap_cons_some hb, ih n h.2]

/-- Sorting the entries by path is visiting them in the order of their keys. -/
theorem sortEntries_range {entriesByPath : EntryMap} (order : IterOrder Str)
    (h : ∀ key entry, entriesByPath.lookup key = some entry → entry.path.value = key) :
    sortEntries ((GoMap.range order entriesByPath).map Prod.snd) =
      (entriesByPath.keys.sort (· ≤ ·)).filterMap entriesByPath.lookup := by
  have hperm : ((GoMap.range order entriesByPath).map Prod.snd).Perm
      ((entriesByPath.keys.sort (· ≤ ·)).filterMap entriesByPath.lookup) := by
    have hsnd : (GoMap.range order entriesByPath).map Prod.snd =
        (order.enum entriesByPath.keys).filterMap entriesByPath.lookup := by
      rw [GoMap.range, List.map_filterMap]
      simp
    rw [hsnd]
    refine List.Perm.filterMap _ ?_
    refine (List.perm_ext_iff_of_nodup (order.nodup _) (Finset.sort_nodup _ _)).mpr fun key ↦ ?_
    rw [order.mem_enum, Finset.mem_sort]
  have hvalue : ∀ entry ∈ (entriesByPath.keys.sort (· ≤ ·)).filterMap entriesByPath.lookup,
      entriesByPath.lookup entry.path.value = some entry := by
    intro entry hentry
    obtain ⟨key, -, hl⟩ := List.mem_filterMap.mp hentry
    rw [h key entry hl]
    exact hl
  refine List.Perm.eq_of_pairwise ?_ (List.pairwise_insertionSort _ _) ?_
    ((List.perm_insertionSort _ _).trans hperm)
  · intro left right hleft hright hle hge
    have hmem := hvalue left ((hperm.mem_iff).mp ((List.perm_insertionSort _ _).mem_iff.mp hleft))
    rw [le_antisymm hle hge, hvalue right hright] at hmem
    exact (Option.some.inj hmem).symm
  · refine (List.pairwise_filterMap ..).mpr ((Finset.pairwise_sort _ _).imp ?_)
    intro key key' hle left hleft right hright
    rw [h key left hleft, h key' right hright]
    exact hle

theorem shown_filterMap {α β : Type} {f : α → Option β} (limit : Int) {l : List α}
    (h : ∀ a ∈ l, (f a).isSome = true) :
    shown limit (l.filterMap f) = (shown limit l).filterMap f := by
  unfold shown
  split
  · rfl
  · exact take_filterMap _ h

/-- The listing is read off the entries in the order of their keys. -/
theorem snapshot_eq {entriesByPath : EntryMap} (order : IterOrder Str) {requested : Int}
    (hrequested : 0 ≤ requested)
    (h : ∀ key entry, entriesByPath.lookup key = some entry → entry.path.value = key) :
    snapshot order requested entriesByPath =
      { entries := sortedEntries requested entriesByPath } := by
  have hsome : ∀ key ∈ entriesByPath.keys.sort (· ≤ ·), (entriesByPath.lookup key).isSome = true :=
    fun key hkey ↦ Finmap.lookup_isSome.mpr (Finmap.mem_keys.mp ((Finset.mem_sort _).mp hkey))
  unfold snapshot sortedEntries
  dsimp only
  rw [sortEntries_range order h, ← shown_filterMap _ hsome]
  generalize (entriesByPath.keys.sort (· ≤ ·)).filterMap entriesByPath.lookup = entries
  unfold shown effectiveListLimit
  split
  · simp
  · rename_i hne
    split
    · rename_i hcut
      rw [min_eq_left (by omega)]
    · rename_i hcut
      rw [List.take_of_length_le (by omega)]

/-- `List` of a live context, on keys that are strings of paths. -/
theorem list_eq {directory : Path} {options : ListOptions} {env : Env} {frame : Frame Objects}
    (hkeys : KeysValid frame.store) (hctx : env.ctx frame.polls = none)
    (hlimit : 0 ≤ options.limit) :
    list directory options env frame =
      some (({ entries := sortedEntries options.limit (listing env.objectsOrder
        (directoryPrefix directory) options.recursive frame.store) }, none),
        { frame with polls := frame.polls + 1 }) := by
  have hcollect : collect (directoryPrefix directory) options.recursive
      (GoMap.range env.objectsOrder frame.store) ∅ = pure (listing env.objectsOrder
        (directoryPrefix directory) options.recursive frame.store) :=
    collect_eq (fun p hp ↦ hkeys p.1 p.2 (GoMap.mem_range.mp hp)) _ _ _
  rw [list, Call.bind_apply, ctxErr_apply, hctx, Option.map_none, Option.bind_some]
  dsimp only
  rw [if_neg (by omega)]
  simp only [Call.bind_apply, Call.ask_apply, load_apply, Option.bind_some, hcollect,
    Call.pure_apply]
  rw [snapshot_eq _ hlimit fun key entry hentry ↦ ?_]
  obtain ⟨-, -, -, -, -, hvalue, -⟩ := exists_of_listing hkeys hentry
  exact hvalue

/-! ## The order of the objects -/

/-- Some name that a listing shows is an object and the directory of an object. -/
def Ambiguous (objects : Objects) (directory : Path) (options : ListOptions) : Prop :=
  options.recursive = false ∧ 0 ≤ options.limit ∧
    ∃ name ∈ shown options.limit
        ((listedNames (directoryPrefix directory) false objects).sort (· ≤ ·)),
      name ∈ objects ∧ ∃ rest, name ++ slash :: rest ∈ objects

section Order

variable {order order' : IterOrder Str} {pre : Str} {recursive : Bool} {objects : Objects}

theorem shown_sublist {α : Type} (limit : Int) (l : List α) : (shown limit l).Sublist l := by
  unfold shown
  split
  · exact .refl l
  · exact List.take_sublist _ _

theorem shown_map {α β : Type} (f : α → β) (limit : Int) (l : List α) :
    shown limit (l.map f) = (shown limit l).map f := by
  unfold shown
  split
  · rfl
  · exact (List.map_take ..).symm

theorem mem_of_mem_shown {α : Type} {limit : Int} {l : List α} {a : α} (h : a ∈ shown limit l) :
    a ∈ l :=
  (shown_sublist limit l).subset h

/-- A name recorded without recursion is one segment below the directory. -/
theorem child_of_mem_listedNames (h : key ∈ listedNames pre false objects) :
    ∃ child, slash ∉ child ∧ key = pre ++ child := by
  obtain ⟨name, hname, rfl⟩ := Finset.mem_image.mp h
  rcases child_or_nested (Finset.mem_filter.mp hname).2 with
    ⟨child, hchild, rfl⟩ | ⟨child, rest, hchild, rfl⟩
  · exact ⟨child, hchild, listedName_child hchild false⟩
  · exact ⟨child, hchild, listedName_nested hchild rest⟩

/-- The entry of a name is the one recorded last. -/
theorem lookup_listing_last {R : Str → Str → Prop}
    (horder : (GoMap.range order objects).Pairwise fun p q ↦ R p.1 q.1)
    (h : (listing order pre recursive objects).lookup key = some entry) :
    ∃ name stored, objects.lookup name = some stored ∧
      recordOf pre recursive (name, stored) = some (key, entry) ∧
      ∀ name' stored' entry', objects.lookup name' = some stored' →
        recordOf pre recursive (name', stored') = some (key, entry') →
          name' = name ∨ R name' name := by
  obtain ⟨before, after, hrecords, hafter⟩ := GoMap.lookup_insertAll_eq_some.mp h
  obtain ⟨earlier, later, hrange, -, hlater⟩ := List.filterMap_eq_append_iff.mp hrecords
  obtain ⟨skipped, ⟨name, stored⟩, later', rfl, hskipped, hrecord, rfl⟩ :=
    List.filterMap_eq_cons_iff.mp hlater
  have hmem : (name, stored) ∈ GoMap.range order objects := by rw [hrange]; simp
  refine ⟨name, stored, GoMap.mem_range.mp hmem, hrecord, ?_⟩
  intro name' stored' entry' hl hrecord'
  have hmem' : (name', stored') ∈ GoMap.range order objects := GoMap.mem_range.mpr hl
  rw [hrange, ← List.append_assoc] at hmem' horder
  rcases List.mem_append.mp hmem' with hbefore | hrest
  · exact .inr ((List.pairwise_append.mp horder).2.2 _ hbefore _ List.mem_cons_self)
  · rcases List.mem_cons.mp hrest with heq | hlate
    · exact .inl (Prod.mk.inj heq).1
    · exact absurd rfl (hafter _ (List.mem_filterMap.mpr ⟨_, hlate, hrecord'⟩))

/-- A key comes before everything beneath it. -/
theorem lt_append_slash (name rest : Str) : name < name ++ slash :: rest := by
  have hlt : name ++ [] < name ++ slash :: rest := List.append_left_lt (List.nil_lt_cons _ _)
  rwa [List.append_nil] at hlt

section Valid

variable (hkeys : KeysValid objects)
include hkeys

/-- An entry is the file of that name or, without recursion, a directory that
some object lies beneath. -/
theorem file_or_directory (h : (listing order pre recursive objects).lookup key = some entry) :
    entry.path.value = key ∧
      ((∃ stored, objects.lookup key = some stored ∧ entry = fileEntry entry.path stored) ∨
        recursive = false ∧ (∃ rest, key ++ slash :: rest ∈ objects) ∧
          entry = directoryEntry entry.path) := by
  obtain ⟨name, stored, hl, hpre, hname, hvalue, hentry⟩ := exists_of_listing hkeys h
  refine ⟨hvalue, ?_⟩
  cases recursive with
  | true =>
      obtain rfl : name = key := hname
      exact .inl ⟨stored, hl, hentry.symm⟩
  | false =>
      rcases child_or_nested hpre with ⟨child, hchild, rfl⟩ | ⟨child, rest, hchild, rfl⟩
      · rw [listedName_child hchild] at hname
        rw [listedEntry_child hchild] at hentry
        subst hname
        exact .inl ⟨stored, hl, hentry.symm⟩
      · rw [listedName_nested hchild] at hname
        rw [listedEntry_nested hchild] at hentry
        subst hname
        exact .inr ⟨rfl, ⟨rest, Finmap.mem_iff.mpr ⟨stored, hl⟩⟩, hentry.symm⟩

/-- Unless a name is an object and a directory, its entry does not depend on the
order. -/
theorem lookup_listing_eq (hname : key ∈ listedNames pre recursive objects)
    (h : ¬(recursive = false ∧ key ∈ objects ∧ ∃ rest, key ++ slash :: rest ∈ objects)) :
    (listing order pre recursive objects).lookup key =
      (listing order' pre recursive objects).lookup key := by
  have hsome : ∀ order, ∃ entry, (listing order pre recursive objects).lookup key = some entry := by
    intro order
    rw [← keys_listing order hkeys, Finmap.mem_keys] at hname
    exact Finmap.mem_iff.mp hname
  obtain ⟨left, hleft⟩ := hsome order
  obtain ⟨right, hright⟩ := hsome order'
  obtain ⟨hpath, hcases⟩ := file_or_directory hkeys hleft
  obtain ⟨hpath', hcases'⟩ := file_or_directory hkeys hright
  have hpaths : left.path = right.path := Path.ext (hpath.trans hpath'.symm)
  rw [hleft, hright, Option.some.injEq]
  rcases hcases with ⟨stored, hl, heq⟩ | ⟨hrecursive, hdirectory, heq⟩
  · rcases hcases' with ⟨stored', hl', heq'⟩ | ⟨hrecursive, hdirectory, -⟩
    · rw [hl] at hl'
      rw [heq, heq', hpaths, Option.some.inj hl']
    · exact absurd ⟨hrecursive, Finmap.mem_iff.mpr ⟨stored, hl⟩, hdirectory⟩ h
  · rcases hcases' with ⟨stored, hl, -⟩ | ⟨-, -, heq'⟩
    · exact absurd ⟨hrecursive, Finmap.mem_iff.mpr ⟨stored, hl⟩, hdirectory⟩ h
    · rw [heq, heq', hpaths]

/-- What is recorded for an object that is a child of the directory. -/
theorem recordOf_child {stored : Object} (hchild : slash ∉ child)
    (hl : objects.lookup (pre ++ child) = some stored) :
    ∃ path, recordOf pre false (pre ++ child, stored) =
      some (pre ++ child, fileEntry path stored) := by
  have hnormal := hkeys _ _ hl
  refine ⟨⟨_, .inr hnormal⟩, (recordOf_eq_some hnormal).mpr ?_⟩
  exact ⟨List.prefix_append _ _, listedName_child hchild _, rfl, listedEntry_child hchild _ _ _⟩

/-- What is recorded for an object beneath a child of the directory. -/
theorem recordOf_nested {child rest : Str} {stored : Object} (hchild : slash ∉ child)
    (hl : objects.lookup (pre ++ child ++ slash :: rest) = some stored) :
    ∃ path, recordOf pre false (pre ++ child ++ slash :: rest, stored) =
      some (pre ++ child, directoryEntry path) := by
  have hnormal := hkeys _ _ hl
  refine ⟨⟨_, .inr hnormal.left⟩, (recordOf_eq_some hnormal).mpr ?_⟩
  refine ⟨?_, listedName_nested hchild _, rfl, listedEntry_nested hchild _ _ _⟩
  rw [List.append_assoc]
  exact List.prefix_append _ _

/-- If the objects are visited in increasing order, the directory is recorded
last. -/
theorem kind_of_increasing {child rest : Str} (hchild : slash ∉ child)
    (hmem : pre ++ child ++ slash :: rest ∈ objects)
    (h : (listing (KeyOrder.increasing Str).toIterOrder pre false objects).lookup (pre ++ child) =
      some entry) : entry.kind = .directory := by
  obtain ⟨name, stored, hl, hrecord, hlast⟩ :=
    lookup_listing_last (GoMap.pairwise_range_increasing objects) h
  obtain ⟨hpre, hname, -, hentry⟩ := (recordOf_eq_some (hkeys name stored hl)).mp hrecord
  obtain ⟨stored', hl'⟩ := Finmap.mem_iff.mp hmem
  obtain ⟨path, hnested⟩ := recordOf_nested hkeys hchild hl'
  rcases child_or_nested hpre with ⟨child', hchild', rfl⟩ | ⟨child', rest', hchild', rfl⟩
  · rw [listedName_child hchild'] at hname
    rw [hname] at hlast
    rcases hlast _ _ _ hl' hnested with heq | hlt
    · exact absurd heq (lt_append_slash _ _).ne'
    · exact absurd hlt (lt_append_slash _ _).asymm
  · rw [← hentry, listedEntry_nested hchild']
    rfl

/-- If the objects are visited in decreasing order, the object is recorded
last. -/
theorem kind_of_decreasing (hchild : slash ∉ child) (hmem : pre ++ child ∈ objects)
    (h : (listing (KeyOrder.increasing Str).toIterOrder.reverse pre false objects).lookup
      (pre ++ child) = some entry) : entry.kind = .file := by
  have horder : (GoMap.range (KeyOrder.increasing Str).toIterOrder.reverse objects).Pairwise
      fun p q ↦ q.1 < p.1 := by
    rw [GoMap.range_reverse]
    exact List.pairwise_reverse.mpr (GoMap.pairwise_range_increasing objects)
  obtain ⟨name, stored, hl, hrecord, hlast⟩ :=
    lookup_listing_last (R := fun n n' ↦ n' < n) horder h
  obtain ⟨hpre, hname, -, hentry⟩ := (recordOf_eq_some (hkeys name stored hl)).mp hrecord
  obtain ⟨stored', hl'⟩ := Finmap.mem_iff.mp hmem
  obtain ⟨path, hfile⟩ := recordOf_child hkeys hchild hl'
  rcases child_or_nested hpre with ⟨child', hchild', rfl⟩ | ⟨child', rest', hchild', rfl⟩
  · rw [← hentry, listedEntry_child hchild']
    rfl
  · rw [listedName_nested hchild'] at hname
    rw [hname] at hlast
    rcases hlast _ _ _ hl' hfile with heq | hlt
    · exact absurd heq (lt_append_slash _ _).ne
    · exact absurd hlt (lt_append_slash _ _).asymm

/-- A shown name has its entry in the listing. -/
theorem mem_sortedEntries {limit : Int} :
    entry ∈ sortedEntries limit (listing order pre recursive objects) ↔
      ∃ name ∈ shown limit ((listedNames pre recursive objects).sort (· ≤ ·)),
        (listing order pre recursive objects).lookup name = some entry := by
  rw [sortedEntries, List.mem_filterMap, keys_listing order hkeys]

/-- No two entries have the same path. -/
theorem nodup_sortedEntries (limit : Int) :
    ((sortedEntries limit (listing order pre recursive objects)).map
      fun entry ↦ entry.path.value).Nodup := by
  have hnodup := (Finset.sort_nodup (listing order pre recursive objects).keys (· ≤ ·)).sublist
    (shown_sublist limit _)
  refine List.pairwise_map.mpr ((List.pairwise_filterMap ..).mpr (hnodup.imp ?_))
  intro key key' hne entry hentry entry' hentry'
  rw [(file_or_directory hkeys hentry).1, (file_or_directory hkeys hentry').1]
  exact hne

end Valid

/-- An early return of `List` does not reach the maps. -/
theorem list_early {directory : Path} {options : ListOptions} {env env' : Env}
    (hctx : env.ctx = env'.ctx) {frame : Frame Objects}
    (h : env.ctx frame.polls ≠ none ∨ options.limit < 0) :
    list directory options env frame = list directory options env' frame := by
  rw [list, Call.bind_apply, Call.bind_apply, ctxErr_apply, ctxErr_apply, ← hctx]
  cases hdone : env.ctx frame.polls with
  | some err => rfl
  | none =>
      have hlimit : options.limit < 0 := h.resolve_left (absurd hdone)
      dsimp only [Option.map_none, Option.bind_some]
      rw [if_pos hlimit]
      rfl

/-- `List` does not depend on the iteration orders exactly when no name it shows
is an object and the directory of another object. -/
theorem list_order_independent_iff {objects : Objects} (hkeys : KeysValid objects)
    (directory : Path) (options : ListOptions) :
    (∀ (env env' : Env) (frame : Frame Objects), env.ctx = env'.ctx → frame.store = objects →
      list directory options env frame = list directory options env' frame) ↔
    ¬Ambiguous objects directory options := by
  constructor
  · rintro h ⟨hrecursive, hlimit, name, hshown, hobject, rest, hrest⟩
    obtain ⟨child, hchild, rfl⟩ :=
      child_of_mem_listedNames ((Finset.mem_sort _).mp (mem_of_mem_shown hshown))
    have horder : ∀ order, ∃ entry, (listing order (directoryPrefix directory) false
        objects).lookup (directoryPrefix directory ++ child) = some entry := by
      intro order
      refine Finmap.mem_iff.mp ((mem_listing hkeys).mpr ?_)
      exact ⟨_, hobject, List.prefix_append _ _, listedName_child hchild _⟩
    obtain ⟨entry, hentry⟩ := horder (KeyOrder.increasing Str).toIterOrder
    have heq := h ⟨fun _ ↦ none, 0, (KeyOrder.increasing Str).toIterOrder,
        (KeyOrder.increasing Str).toIterOrder⟩
      ⟨fun _ ↦ none, 0, (KeyOrder.increasing Str).toIterOrder.reverse,
        (KeyOrder.increasing Str).toIterOrder⟩ { store := objects } rfl rfl
    rw [list_eq hkeys rfl hlimit, list_eq hkeys rfl hlimit, hrecursive] at heq
    have hentries := congrArg Listing.entries (Prod.mk.inj (Prod.mk.inj (Option.some.inj heq)).1).1
    dsimp only at hentries
    have hmem := (mem_sortedEntries hkeys).mpr ⟨_, hshown, hentry⟩
    rw [hentries] at hmem
    obtain ⟨name', -, hentry'⟩ := (mem_sortedEntries hkeys).mp hmem
    have hname : name' = directoryPrefix directory ++ child :=
      (file_or_directory hkeys hentry').1.symm.trans (file_or_directory hkeys hentry).1
    rw [hname] at hentry'
    have hkind := kind_of_increasing hkeys hchild hrest hentry
    rw [kind_of_decreasing hkeys hchild hobject hentry'] at hkind
    contradiction
  · rintro h env env' frame hctx rfl
    by_cases hearly : env.ctx frame.polls ≠ none ∨ options.limit < 0
    · exact list_early hctx hearly
    · rw [not_or, not_not, not_lt] at hearly
      rw [list_eq hkeys hearly.1 hearly.2, list_eq hkeys (hctx ▸ hearly.1) hearly.2, sortedEntries,
        sortedEntries, keys_listing _ hkeys, keys_listing _ hkeys]
      rw [List.filterMap_congr fun name hshown ↦ ?_]
      refine lookup_listing_eq hkeys ((Finset.mem_sort _).mp (mem_of_mem_shown hshown)) ?_
      rintro ⟨hrecursive, hobject, hdirectory⟩
      rw [hrecursive] at hshown
      exact h ⟨hrecursive, hearly.2, name, hshown, hobject, hdirectory⟩

end Order

/-- The object `a` with one byte of content, and the same object at `a/b`. -/
def objectAndDirectory : Objects :=
  let stored : Object := ⟨.lit "x", none, [], .visibilityPrivate, 0⟩
  (new.insert (.lit "a") stored).insert (.lit "a/b") stored

theorem keysValid_objectAndDirectory : KeysValid objectAndDirectory := by
  intro name stored h
  have hmem : name ∈ objectAndDirectory := Finmap.mem_iff.mpr ⟨stored, h⟩
  rw [objectAndDirectory, Finmap.mem_insert, Finmap.mem_insert] at hmem
  rcases hmem with rfl | rfl | hmem
  · decide
  · decide
  · exact absurd hmem (Finmap.notMem_empty)

/-- A live context and one order of the objects. -/
def visiting (order : IterOrder Str) : Env :=
  ⟨fun _ ↦ none, 0, order, (KeyOrder.increasing Str).toIterOrder⟩

/-- A recursive listing of the two objects is the same in both orders. -/
theorem objectAndDirectory_recursive :
    list .root { recursive := true } (visiting (KeyOrder.increasing Str).toIterOrder)
        { store := objectAndDirectory } =
      list .root { recursive := true } (visiting (KeyOrder.increasing Str).toIterOrder.reverse)
        { store := objectAndDirectory } := by
  refine (list_order_independent_iff keysValid_objectAndDirectory .root { recursive := true }).mpr
    ?_ _ _ _ rfl rfl
  rintro ⟨hrecursive, -⟩
  contradiction

/-- The root of the two objects has one entry, the one recorded last. -/
theorem objectAndDirectory_entry (order : IterOrder Str) :
    ∃ entry, (listing order [] false objectAndDirectory).lookup (.lit "a") = some entry ∧
      list .root {} (visiting order) { store := objectAndDirectory } =
        some (({ entries := [entry] }, none), { store := objectAndDirectory, polls := 1 }) := by
  have hkeys : (listing order [] false objectAndDirectory).keys = {.lit "a"} := by
    rw [keys_listing order keysValid_objectAndDirectory]
    decide
  obtain ⟨entry, hentry⟩ : ∃ entry,
      (listing order [] false objectAndDirectory).lookup (.lit "a") = some entry := by
    have hmem : Str.lit "a" ∈ (listing order [] false objectAndDirectory).keys := by
      rw [hkeys]
      exact Finset.mem_singleton_self _
    exact Finmap.mem_iff.mp (Finmap.mem_keys.mp hmem)
  refine ⟨entry, hentry, ?_⟩
  have hsorted : sortedEntries 0 (listing order [] false objectAndDirectory) = [entry] := by
    rw [sortedEntries, hkeys, Finset.sort_singleton, shown, if_pos rfl]
    simp only [List.filterMap_cons, hentry, List.filterMap_nil]
  rw [← hsorted]
  exact list_eq keysValid_objectAndDirectory rfl le_rfl

/-- Without recursion `a` is listed as a directory in one order and as a file in
the other. -/
theorem objectAndDirectory_kinds :
    let kinds (order : IterOrder Str) : Option (List EntryKind) :=
      (list .root {} (visiting order) { store := objectAndDirectory }).map
        fun r ↦ r.1.1.entries.map Entry.kind
    kinds (KeyOrder.increasing Str).toIterOrder = some [.directory] ∧
      kinds (KeyOrder.increasing Str).toIterOrder.reverse = some [.file] := by
  intro kinds
  have hchild : slash ∉ Str.lit "a" := by decide
  constructor
  · obtain ⟨entry, hentry, hlist⟩ := objectAndDirectory_entry (KeyOrder.increasing Str).toIterOrder
    have hnested : [] ++ Str.lit "a" ++ slash :: Str.lit "b" ∈ objectAndDirectory := by decide
    have hkind := kind_of_increasing keysValid_objectAndDirectory hchild hnested hentry
    simp only [kinds, hlist, Option.map_some, List.map_cons, List.map_nil, hkind]
  · obtain ⟨entry, hentry, hlist⟩ :=
      objectAndDirectory_entry (KeyOrder.increasing Str).toIterOrder.reverse
    have hobject : [] ++ Str.lit "a" ∈ objectAndDirectory := by decide
    have hkind := kind_of_decreasing keysValid_objectAndDirectory hchild hobject hentry
    simp only [kinds, hlist, Option.map_some, List.map_cons, List.map_nil, hkind]

end GoFilesystem.Memory
