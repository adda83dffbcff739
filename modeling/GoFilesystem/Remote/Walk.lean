import GoFilesystem.Entries
import GoFilesystem.Remote.Names
import GoFilesystem.Remote.Server
import GoFilesystem.Posix.Walk

/-!
# Listing a server

The two adapters for servers walk a directory in the same way.  They visit the
children of a directory in the order of their names, make the path of each from the
path of the directory, and stop when the listing is full.
-/

namespace GoFilesystem.Remote

open Go Posix PathName

/-! ## What the loop over the children does -/

theorem exists_of_forall₂ {α β : Type} {R : α → β → Prop} {as : List α} {bs : List β}
    (h : List.Forall₂ R as bs) {x : α} (hx : x ∈ as) : ∃ b ∈ bs, R x b := by
  induction h with
  | nil => exact absurd hx List.not_mem_nil
  | @cons y b _ _ hy _ ih =>
      rcases List.mem_cons.mp hx with rfl | hx
      · exact ⟨b, List.mem_cons_self, hy⟩
      · obtain ⟨b', hb', hr⟩ := ih hx
        exact ⟨b', List.mem_cons_of_mem _ hb', hr⟩

/-- The entry was made of a child of the directory. -/
structure Made (current : Path) (entry : Entry) (child : Child) : Prop where
  noLink : child.link = false
  join_eq : current.join child.name = .ok entry.path
  eq_entryOf : entry = entryOf entry.path child

def directoryPaths (entries : List Entry) : List Path :=
  (entries.filter fun entry ↦ entry.kind = .directory).map Entry.path

section Visit

variable {denied : Str → Err} {current : Path} {recursive : Bool} {limit : Int}
  {children : List Child} {queue : List Path} {entries entries' : List Entry}
  {queue' : Option (List Path)}

/-- The entries that the loop adds are made of the children in their order, and unless
the listing is full, of all of them. -/
theorem visitChildren_eq_ok
    (h : visitChildren denied current recursive limit children queue entries =
      .ok (entries', queue')) :
    ∃ made, entries' = entries ++ made ∧
      List.Forall₂ (Made current) made (children.take made.length) ∧
      match queue' with
      | none => entries.length < limit → entries'.length = limit
      | some queue' => made.length = children.length ∧
        (queue' = queue ++ if recursive then directoryPaths made else []) ∧
        (entries.length < limit → entries'.length < limit) := by
  induction children generalizing queue entries with
  | nil =>
      cases h
      refine ⟨[], (List.append_nil _).symm, .nil, rfl, ?_, id⟩
      split <;> exact (List.append_nil _).symm
  | cons child children ih =>
      unfold visitChildren at h
      split at h
      · contradiction
      · rename_i hlink
        split at h
        · contradiction
        · rename_i path hpath
          have hmade : Made current (entryOf path child) child :=
            ⟨Bool.not_eq_true _ ▸ hlink, hpath, rfl⟩
          dsimp only at h
          split at h
          · rename_i hlimit
            cases h
            refine ⟨[entryOf path child], rfl, .cons hmade .nil, fun hlt ↦ ?_⟩
            rw [List.length_append, List.length_singleton] at hlimit ⊢
            omega
          · rename_i hlimit
            obtain ⟨made, rfl, hforall, hqueue⟩ := ih h
            refine ⟨entryOf path child :: made, by simp, .cons hmade hforall, ?_⟩
            cases queue' with
            | none => exact fun _ ↦ hqueue (by omega)
            | some queue' =>
                obtain ⟨hlength, rfl, hlt⟩ := hqueue
                refine ⟨congrArg (· + 1) hlength, ?_, fun _ ↦ hlt (by omega)⟩
                cases recursive with
                | false => simp
                | true =>
                    cases hdirectory : child.directory <;>
                      simp [directoryPaths, entryOf, hdirectory]

end Visit

/-! ## What has been visited -/

/-- The children that the answers of a server show, in the order in which they are
visited, each with its directory. -/
def shown (listings : List (Location × List Child)) : List (Location × Child) :=
  listings.flatMap fun (l, children) ↦ (inOrder children).map fun child ↦ (l, child)

theorem shown_append (listings : List (Location × List Child)) (l : Location)
    (children : List Child) :
    shown (listings ++ [(l, children)]) =
      shown listings ++ (inOrder children).map fun child ↦ (l, child) := by
  unfold shown
  rw [List.flatMap_append, List.flatMap_singleton]

/-- The entry was made of a child of the directory at a location. -/
def MadeAt (root : Str) (entry : Entry) (shown : Location × Child) : Prop :=
  ∃ current, location root current = shown.1 ∧ Made current entry shown.2

section Walk

variable {root : Str} {current : Path} {children : List Child} {entries : List Entry}

theorem forall₂_madeAt (h : List.Forall₂ (Made current) entries children) :
    List.Forall₂ (MadeAt root) entries
      (children.map fun child ↦ (location root current, child)) :=
  List.forall₂_map_right_iff.mpr (h.imp fun _ _ hmade ↦ ⟨current, rfl, hmade⟩)

/-- The entries so far are made of all that the answers to the requests of a walk show,
and what has been read is the directory or beneath it; only the directory itself, if the
walk is not recursive. -/
structure Walking (root : Str) (tree : FileTree) (recursive : Bool) (directory : Path)
    (queue : List Path) (entries : List Entry) (v : Server) : Prop where
  tree_eq : v.tree = tree
  listings : ∀ x ∈ v.listings, Listing tree x.1 x.2
  places : ∀ x ∈ v.listings, location root directory <+: x.1
  shallow : recursive = false →
    v.listings.map Prod.fst ++ queue.map (location root) = [location root directory]
  entries : List.Forall₂ (MadeAt root) entries (shown v.listings)

/-- The entries are made of the first ones of what the answers show. -/
structure Walked (root : Str) (tree : FileTree) (recursive : Bool) (directory : Path)
    (entries : List Entry) (v : Server) : Prop where
  tree_eq : v.tree = tree
  listings : ∀ x ∈ v.listings, Listing tree x.1 x.2
  places : ∀ x ∈ v.listings, location root directory <+: x.1
  shallow : recursive = false → v.listings.map Prod.fst = [location root directory]
  entries : List.Forall₂ (MadeAt root) entries ((shown v.listings).take entries.length)

variable {tree : FileTree} {v : Server} {recursive : Bool} {directory : Path} {queue : List Path}

theorem Walking.walked (h : Walking root tree recursive directory [] entries v) :
    Walked root tree recursive directory entries v where
  tree_eq := h.tree_eq
  listings := h.listings
  places := h.places
  shallow hrecursive := (List.append_nil _).symm.trans (h.shallow hrecursive)
  entries := by
    rw [h.entries.length_eq, List.take_length]
    exact h.entries

/-- What is in a directory that is read is beneath the one that is listed. -/
theorem Listing.beneath {l : Location} (h : Listing tree l children)
    (hplace : location root directory <+: l)
    (hshallow : recursive = false → l = location root directory) {child : Child}
    (hchild : child ∈ children) :
    tree.Beneath recursive (location root directory) (l ++ [child.name]) := by
  refine ⟨?_, hplace.trans (List.prefix_append ..), ?_, fun hrecursive ↦ ?_⟩
  · exact (h.lists.mem_iff _).mp (List.mem_map_of_mem hchild)
  · intro heq
    have hlength := hplace.length_le
    rw [← heq, List.length_append, List.length_singleton] at hlength
    omega
  · rw [hshallow hrecursive, List.length_append, List.length_singleton]

def Server.listed (v : Server) (l : Location) (children : List Child) : Server :=
  { v with listings := v.listings ++ [(l, children)] }

/-- One round of a walk. -/
theorem Walking.visitDirectory (denied : Str → Err) (limit : Int)
    (h : Walking root tree recursive directory (current :: queue) entries v)
    (hcurrent : directory.segments <+: current.segments)
    (hlisting : Listing tree (location root current) children) :
    match visitDirectory denied recursive limit current queue entries children with
    | .inl (queue', entries') => Walking root tree recursive directory queue' entries'
      (v.listed (location root current) children)
    | .inr (.ok entries') => ∃ made, entries' = sortEntries made ∧
      Walked root tree recursive directory made (v.listed (location root current) children) ∧
      (entries.length < limit → made.length = limit)
    | .inr (.error err) => ∃ child ∈ children, (child.link = true ∧ err = denied child.name) ∨
      ∃ e, current.join child.name = .error e ∧ err = e.err := by
  have hlistings : ∀ x ∈ (v.listed (location root current) children).listings,
      Listing tree x.1 x.2 ∧ location root directory <+: x.1 := by
    intro x hx
    rcases List.mem_append.mp hx with hx | hx
    · exact ⟨h.listings x hx, h.places x hx⟩
    · rw [List.mem_singleton.mp hx]
      exact ⟨hlisting, (List.prefix_append_right_inj _).mpr hcurrent⟩
  have hshallow : recursive = false → (v.listed (location root current) children).listings.map
      Prod.fst ++ queue.map (location root) = [location root directory] := by
    intro hrecursive
    rw [← h.shallow hrecursive, Server.listed, List.map_append, List.append_assoc]
    rfl
  have hshown (made : List Entry)
      (hmade : List.Forall₂ (Made current) made ((inOrder children).take made.length)) :
      List.Forall₂ (MadeAt root) (entries ++ made)
        ((shown (v.listed (location root current) children).listings).take
          (entries ++ made).length) := by
    rw [Server.listed, shown_append, List.length_append, h.entries.length_eq,
      List.take_length_add_append, ← List.map_take]
    exact List.rel_append h.entries (forall₂_madeAt hmade)
  cases hvisit : Remote.visitDirectory denied recursive limit current queue entries children with
  | inl next =>
      obtain ⟨queue', entries'⟩ := next
      unfold Remote.visitDirectory at hvisit
      split at hvisit
      · contradiction
      · contradiction
      rename_i hvisit'
      cases hvisit
      obtain ⟨made, rfl, hmade, hlength, rfl, -⟩ := visitChildren_eq_ok hvisit'
      have hall := hshown made hmade
      rw [List.take_of_length_le] at hall
      · refine ⟨h.tree_eq, fun x hx ↦ (hlistings x hx).1, fun x hx ↦ (hlistings x hx).2, ?_, hall⟩
        rintro rfl
        simpa using hshallow rfl
      · rw [Server.listed, shown_append, List.length_append, List.length_append,
          h.entries.length_eq, List.length_map, hlength]
  | inr result =>
      cases result with
      | error err =>
          obtain ⟨child, hchild, hcause⟩ := visitDirectory_eq_error hvisit
          exact ⟨child, List.mem_mergeSort.mp hchild, hcause⟩
      | ok entries' =>
          unfold Remote.visitDirectory at hvisit
          split at hvisit
          · exact nomatch Sum.inr.inj hvisit
          swap
          · contradiction
          rename_i hvisit'
          cases hvisit
          obtain ⟨made, rfl, hmade, hfull⟩ := visitChildren_eq_ok hvisit'
          refine ⟨_, rfl, ⟨h.tree_eq, fun x hx ↦ (hlistings x hx).1, fun x hx ↦ (hlistings x hx).2,
            fun hrecursive ↦ ?_, hshown made hmade⟩, hfull⟩
          -- the one location is that of the listing, and nothing is left
          have heq := hshallow hrecursive
          have hlength := congrArg List.length heq
          simp only [Server.listed, List.map_append, List.length_append, List.length_map,
            List.length_singleton] at hlength
          rwa [List.eq_nil_of_length_eq_zero (by omega : queue.length = 0), List.map_nil,
            List.append_nil] at heq

end Walk

/-! ## Which files the entries identify -/

/-- Where the children are that the answers of a server show. -/
def visited (listings : List (Location × List Child)) : List Location :=
  (shown listings).map fun (l, child) ↦ l ++ [child.name]

section Identify

variable {root : Str} {current path directory : Path} {name : Str} {recursive : Bool}
  {made : List Entry}

/-- The segments of a string have no backslashes. -/
theorem notMem_of_mem_segmentsOf {value segment : Str} (h : segment ∈ segmentsOf value) :
    backslash ∉ segment := by
  have hmem := (List.mem_filter.mp h).1
  rw [← splitOn_replaceAll] at hmem
  exact fun hb ↦ notMem_replaceAll (by decide) value (mem_of_mem_splitOn hmem hb)

/-- The path of a child leads to the child if and only if its name has no backslash. -/
theorem location_join_iff (root : Str) (hname : IsName name) (h : current.join name = .ok path) :
    location root path = location root current ++ [name] ↔ backslash ∉ name := by
  unfold location
  rw [Path.segments_join h, ← List.append_assoc, List.append_cancel_left_eq]
  constructor
  · intro heq
    exact notMem_of_mem_segmentsOf (heq ▸ List.mem_singleton_self name)
  · exact ProperSegment.segmentsOf_eq ⟨hname.ne_nil, hname.ne_dot, hname.ne_parent⟩ hname.noSlash

theorem Made.fits {entry : Entry} {child : Child} {object : Object} (h : Made current entry child)
    (hdescribes : Describes child object) : entry.Fits object := by
  rw [h.eq_entryOf]
  cases object with
  | directory =>
      have hdirectory : child.directory = true := hdescribes.1
      simp [Entry.Fits, entryOf, hdirectory]
  | file content =>
      obtain ⟨hdirectory, -, hsize⟩ := hdescribes
      simp [Entry.Fits, entryOf, hdirectory, hsize]

/-- Every child that is shown is there, and is what its description says. -/
theorem Walked.describes {tree : FileTree} {v : Server}
    (h : Walked root tree recursive directory made v) :
    ∀ x ∈ (shown v.listings).take made.length, ∃ object,
      tree.lookup (x.1 ++ [x.2.name]) = some object ∧ Describes x.2 object := by
  intro x hx
  obtain ⟨⟨l, children⟩, hmem, hx⟩ := List.mem_flatMap.mp (List.mem_of_mem_take hx)
  obtain ⟨child, hchild, rfl⟩ := List.mem_map.mp hx
  exact (h.listings _ hmem).describes child (List.mem_mergeSort.mp hchild)

theorem Walked.lookup_visited {tree : FileTree} {v : Server}
    (h : Walked root tree recursive directory made v) {l : Location}
    (hl : l ∈ (visited v.listings).take (sortEntries made).length) : tree.lookup l ≠ none := by
  have hperm : (sortEntries made).Perm made := List.mergeSort_perm ..
  rw [visited, ← List.map_take, hperm.length_eq] at hl
  obtain ⟨x, hx, rfl⟩ := List.mem_map.mp hl
  obtain ⟨object, hlookup, -⟩ := h.describes x hx
  exact ne_of_eq_of_ne hlookup nofun

/-- The entry has the kind and the size of the object at a location. -/
def Shows (tree : FileTree) (l : Location) (entry : Entry) : Prop :=
  ∃ object, tree.lookup l = some object ∧ entry.Fits object

/-- The entries that a walk has made identify the visited files if and only if no name
among them has a backslash. -/
theorem Walked.identifyVisited_iff (hroot : IsRoot root) {tree : FileTree} {v : Server}
    (h : Walked root tree recursive directory made v) :
    IdentifyVisited (location root) (Shows tree) (sortEntries made)
        ((visited v.listings).take (sortEntries made).length) ↔
      ∀ l ∈ (visited v.listings).take (sortEntries made).length, ∀ name ∈ l, backslash ∉ name := by
  have hperm : (sortEntries made).Perm made := List.mergeSort_perm ..
  refine GoFilesystem.identifyVisited_iff
    (fun path name hname ↦ (isName_of_mem_location hroot path hname).2) hperm ?_
  rw [hperm.length_eq, visited, ← List.map_take]
  refine List.forall₂_map_right_iff.mpr ?_
  refine ((List.forall₂_and_left ..).mpr ⟨h.describes, h.entries.flip⟩).flip.imp ?_
  rintro entry ⟨l, child⟩ ⟨⟨object, hlookup, hdescribes⟩, current, rfl, hmade⟩ hplain
  have hname : IsName child.name := FileTree.isName_of_lookup (by rw [hlookup]; exact nofun)
  refine ⟨(location_join_iff root hname hmade.join_eq).mpr ?_, object, hlookup, ?_⟩
  · exact hplain child.name (List.mem_append_right _ (List.mem_singleton_self _))
  · exact hmade.fits hdescribes

end Identify

end GoFilesystem.Remote
