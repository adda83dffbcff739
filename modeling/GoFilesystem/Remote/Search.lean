import GoFilesystem.Remote.Bounds
import GoFilesystem.Remote.Calls

/-!
# What a walk finds

The loop of `list` on a server.  A round reads a directory and visits its children, and
the loop ends because of its limit.  What it returns is said once for the two adapters
(`ensures_walk`):

| it returns | because |
| --- | --- |
| entries | they are made of the children that the answers show |
| an error | of the server, of a link or of a name that is no path |

As long as `ParsePath` accepts every name that is read and leaves it as it is, the loop
is also a walk in the sense of `Posix.Walk`, and finds everything.
-/

namespace GoFilesystem.Remote

open Go Conc Posix PathName

/-- Whether `ParsePath` accepts a name. -/
def Accepted (name : Str) : Prop := ∃ path, parsePath name = .ok path

/-- Whether `ParsePath` accepts a name and leaves it as it is. -/
def Verbatim (name : Str) : Prop := ∃ path, parsePath name = .ok path ∧ path.value = name

theorem Verbatim.accepted {name : Str} (h : Verbatim name) : Accepted name :=
  h.imp fun _ h ↦ h.1

theorem Verbatim.noBackslash {name : Str} (h : Verbatim name) : backslash ∉ name := by
  obtain ⟨path, hpath, rfl⟩ := h
  exact (normalForm_of_normalizePath (parsePath_eq_ok.mp hpath)).noBackslash

/-- The names that the answers of a server show. -/
def namesRead (listings : List (Location × List Child)) : List Str :=
  listings.flatMap fun x ↦ x.2.map Child.name

theorem mem_namesRead {listings : List (Location × List Child)} {name : Str} :
    name ∈ namesRead listings ↔ ∃ x ∈ listings, ∃ child ∈ x.2, child.name = name := by
  simp [namesRead]

/-! ## The locations of the entries -/

def locations (root : Str) (entries : List Entry) : List Location :=
  entries.map fun entry ↦ location root entry.path

section Locations

variable {root : Str} {current : Path} {tree : FileTree} {children : List Child}
  {entries made : List Entry}

@[simp] theorem locations_append :
    locations root (entries ++ made) = locations root entries ++ locations root made :=
  List.map_append

@[simp] theorem length_locations : (locations root entries).length = entries.length :=
  List.length_map _

theorem inOrder_perm (children : List Child) : (inOrder children).Perm children :=
  List.mergeSort_perm ..

/-- The children stay what they are in another order. -/
theorem Listing.perm {l : Location} {children' : List Child} (h : Listing tree l children)
    (hperm : children'.Perm children) : Listing tree l children' where
  lists := {
    nodup := (hperm.map _).nodup_iff.mpr h.lists.nodup
    mem_iff := fun name ↦ ((hperm.map _).mem_iff).trans (h.lists.mem_iff name) }
  describes child hchild := h.describes child (hperm.mem_iff.mp hchild)

/-- The paths of the entries lead to the children they are made of. -/
theorem locations_of_made (hname : ∀ child ∈ children, IsName child.name ∧ backslash ∉ child.name)
    (hmade : List.Forall₂ (Made current) made children) :
    locations root made =
      FileTree.children (location root current) (children.map Child.name) := by
  induction hmade with
  | nil => rfl
  | @cons entry child _ _ hentry _ ih =>
      obtain ⟨hisName, hbackslash⟩ := hname child List.mem_cons_self
      have hhead := (location_join_iff root hisName hentry.join_eq).mpr hbackslash
      have htail := ih fun child hchild ↦ hname child (List.mem_cons_of_mem _ hchild)
      exact congrArg₂ List.cons hhead htail

/-- The entries of directories are made of directories. -/
theorem directoryPaths_of_made
    (hname : ∀ child ∈ children, IsName child.name ∧ backslash ∉ child.name)
    (hdescribes : ∀ child ∈ children, ∃ object,
      tree.lookup (location root current ++ [child.name]) = some object ∧ Describes child object)
    (hmade : List.Forall₂ (Made current) made children) :
    (directoryPaths made).map (location root) =
      tree.directories (FileTree.children (location root current) (children.map Child.name)) := by
  induction hmade with
  | nil => rfl
  | @cons entry child made _ hentry _ ih =>
      obtain ⟨hisName, hbackslash⟩ := hname child List.mem_cons_self
      have hhead := (location_join_iff root hisName hentry.join_eq).mpr hbackslash
      have htail := ih (fun child hchild ↦ hname child (List.mem_cons_of_mem _ hchild))
        fun child hchild ↦ hdescribes child (List.mem_cons_of_mem _ hchild)
      obtain ⟨object, hlookup, hobject⟩ := hdescribes child List.mem_cons_self
      have hfits := hentry.fits hobject
      unfold directoryPaths FileTree.directories FileTree.children at htail ⊢
      cases object with
      | directory =>
          have hkind : entry.kind = .directory := hfits
          simp [hkind, hlookup, hhead, htail]
      | file content =>
          have hkind : entry.kind = .file := hfits.1
          simp [hkind, hlookup, htail]

end Locations

/-! ## A round finds what is in a directory -/

/-- The entries are beneath a directory, and as many as there are or as the limit
allows. -/
structure Finds (root : Str) (tree : FileTree) (recursive : Bool) (limit : Int)
    (directory : Path) (entries : List Entry) : Prop where
  nodup : (locations root entries).Nodup
  beneath : ∀ l ∈ locations root entries, tree.Beneath recursive (location root directory) l
  length_eq : entries.length = min limit (tree.size recursive (location root directory))

/-- How far a walk has come, by the locations of its paths. -/
def progress (root : Str) (queue : List Path) (entries : List Entry) : Walk where
  queue := queue.map (location root)
  found := locations root entries

section Search

variable {root : Str} {tree : FileTree} {directory current : Path}
  {recursive : Bool} {limit : Int} {children : List Child} {queue : List Path}
  {entries : List Entry}

theorem Finds.perm {entries' : List Entry} (h : Finds root tree recursive limit directory entries)
    (hperm : entries'.Perm entries) : Finds root tree recursive limit directory entries' where
  nodup := (hperm.map _).nodup_iff.mpr h.nodup
  beneath l hl := h.beneath l ((hperm.map _).mem_iff.mp hl)
  length_eq := hperm.length_eq ▸ h.length_eq

/-- If the limit allows it, the entries are all there is. -/
theorem Finds.mem_iff (h : Finds root tree recursive limit directory entries)
    (hlimit : tree.size recursive (location root directory) ≤ limit) {l : Location} :
    l ∈ locations root entries ↔ tree.Beneath recursive (location root directory) l := by
  refine ⟨h.beneath l, FileTree.mem_of_size_le h.nodup h.beneath ?_⟩
  have hlength := h.length_eq
  rw [min_eq_right hlimit] at hlength
  rw [length_locations]
  exact_mod_cast hlength.ge

theorem Listing.isName (h : Listing tree (location root current) children)
    (hverbatim : ∀ child ∈ children, Verbatim child.name) :
    ∀ child ∈ children, IsName child.name ∧ backslash ∉ child.name := by
  intro child hchild
  have hlookup := (h.lists.mem_iff _).mp (List.mem_map_of_mem hchild)
  exact ⟨FileTree.isName_of_lookup hlookup, (hverbatim child hchild).noBackslash⟩

/-- One round of a walk finds what is in the directory. -/
theorem visitDirectory_finds (denied : Str → Err)
    (hinv : Walk.Inv tree recursive (location root directory)
      (progress root (current :: queue) entries)) (hlength : entries.length < limit)
    (hlisting : Listing tree (location root current) children)
    (hverbatim : ∀ child ∈ children, Verbatim child.name) :
    match visitDirectory denied recursive limit current queue entries children with
    | .inl (queue', entries') =>
      Walk.Inv tree recursive (location root directory) (progress root queue' entries')
    | .inr (.ok entries') => Finds root tree recursive limit directory entries'
    | .inr (.error _) => True := by
  have hordered := hlisting.perm (inOrder_perm children)
  have hname := hordered.isName fun child hchild ↦ hverbatim child (List.mem_mergeSort.mp hchild)
  unfold Remote.visitDirectory
  cases hvisit : visitChildren denied current recursive limit (inOrder children) queue entries with
  | error err => trivial
  | ok result =>
      obtain ⟨entries', queue'⟩ := result
      obtain ⟨made, rfl, hmade, hqueue⟩ := visitChildren_eq_ok hvisit
      have hlocations : locations root (entries ++ made) = locations root entries ++
          (FileTree.children (location root current)
            ((inOrder children).map Child.name)).take made.length := by
        rw [locations_append, locations_of_made ?_ hmade]
        · unfold FileTree.children
          rw [List.map_take, List.map_take]
        · exact fun child hchild ↦ hname child (List.mem_of_mem_take hchild)
      cases queue' with
      | none =>
          have hsublist := (List.take_sublist made.length (FileTree.children
            (location root current) ((inOrder children).map Child.name))).append_left
            (locations root entries)
          have hnodup := (hinv.found_nodup_append hordered.lists).sublist hsublist
          have hbeneath : ∀ l ∈ locations root (entries ++ made),
              tree.Beneath recursive (location root directory) l := by
            intro l hl
            rcases List.mem_append.mp (hlocations ▸ hl) with hl | hl
            · exact hinv.beneath l hl
            · exact hinv.beneath_children hordered.lists (List.mem_of_mem_take hl)
          rw [← hlocations] at hnodup
          have hle := FileTree.length_le_size hnodup hbeneath
          have heq := hqueue hlength
          rw [length_locations] at hle
          refine Finds.perm ⟨hnodup, hbeneath, ?_⟩ (List.mergeSort_perm ..)
          rw [min_eq_left (heq ▸ Int.ofNat_le.mpr hle), heq]
      | some queue' =>
          obtain ⟨hall, rfl, -⟩ := hqueue
          rw [List.take_of_length_le (by simp [hall, FileTree.children])] at hlocations
          rw [List.take_of_length_le hall.ge] at hmade
          have hnext : progress root (queue ++ if recursive then directoryPaths made else [])
              (entries ++ made) =
              Walk.next tree recursive (location root current) ((inOrder children).map Child.name)
                (progress root queue entries) := by
            unfold progress Walk.next
            rw [hlocations, List.map_append]
            congr 2
            split
            · exact directoryPaths_of_made hname hordered.describes hmade
            · rfl
          dsimp only
          rw [hnext]
          exact hinv.next hordered.lists

/-- A walk with nothing left to do has found everything. -/
theorem finds_of_inv (hinv : Walk.Inv tree recursive (location root directory)
    (progress root [] entries)) (hlength : entries.length < limit) :
    Finds root tree recursive limit directory entries where
  nodup := hinv.found_nodup
  beneath := hinv.beneath
  length_eq := by
    have hsize := FileTree.length_eq_size hinv.found_nodup fun _ ↦ hinv.mem_found_iff
    change (locations root entries).length = _ at hsize
    rw [length_locations] at hsize
    rw [← hsize, min_eq_right hlength.le]

end Search

/-! ## The program -/

/-- What `list` returns, and what it has read.  Its entries are made of what it has read,
up to the limit, and are what is to be found if no name was altered.  If `live` holds, an
error is due to a name beneath the directory. -/
def Searched (live : Prop) (root : Str) (tree : FileTree) (recursive : Bool) (limit : Int)
    (directory : Path) (v : Server) : Except Err (List Entry) → Prop
  | .ok entries =>
    (∃ made, entries = sortEntries made ∧ Walked root tree recursive directory made v ∧
      (made.length = limit ∨ made.length = (shown v.listings).length)) ∧
    (live → (∀ name ∈ namesRead v.listings, Verbatim name) →
      Finds root tree recursive limit directory entries)
  | .error _ => live → ∃ l name, tree.Beneath recursive (location root directory) (l ++ [name]) ∧
    name ∈ namesRead v.listings ∧ (¬Accepted name ∨ (recursive = true ∧ ¬Verbatim name))

section Program

variable {S : Sig} {W : Type} {C : Client S} {A : Answers S W} {live : Prop} {server : W → Server}
  {Ready : W → Prop} {root : Str} {ctx : Ctx} {session : Session} {recursive : Bool} {limit : Int}
  {directory : Path} {w : W}

/-- The loop of `list`, if the server answers its requests while `Ready` holds, no error
breaks the session, and if `live` holds, only what is no directory fails. -/
theorem ensures_walk (hread : ∀ w current, Ready w →
      Ensures A live (C.readDir ctx session (remoteName root current)) w fun r w' ↦
        Ready w' ∧ match r with
        | .ok children => Listing (server w).tree (location root current) children ∧
          server w' = (server w).listed (location root current) children
        | .error err => C.isConnectionError err = false ∧ server w' = server w ∧
          (live → (server w).tree.lookup (location root current) ≠ some .directory))
    (hpath : ∀ e : PathError, C.isConnectionError e.err = false) (hlimit : 0 < limit)
    (hdirectory : live → (server w).tree.lookup (location root directory) = some .directory)
    (hlistings : (server w).listings = []) (hw : Ready w) :
    Ensures A live (Prog.loop (C.listNext root ctx session recursive limit) ([directory], [])) w
      fun r w' ↦ Ready w' ∧ (∀ err, r = .error err → C.isConnectionError err = false) ∧
        Searched live root (server w).tree recursive limit directory (server w') r := by
  refine Ensures.loop
    (fun i w' ↦ Ready w' ∧
      Walking root (server w).tree recursive directory i.1 i.2 (server w') ∧
      (∃ n, Within directory limit i.1 i.2 n) ∧
      (live → (∀ name ∈ namesRead (server w').listings, Verbatim name) →
        Walk.Inv (server w).tree recursive (location root directory) (progress root i.1 i.2)))
    (fun i _ ↦ 2 * (limit.toNat - i.2.length) + i.1.length) ?_ ?_
  · refine ⟨hw, ⟨rfl, by simp [hlistings], by simp [hlistings], ?_, by simp [hlistings, shown]⟩,
      ⟨0, within_start hlimit⟩, fun hl _ ↦ Walk.inv_start (hdirectory hl)⟩
    exact fun _ ↦ by simp [hlistings]
  rintro ⟨queue, entries⟩ w₁ ⟨hready, hwalking, ⟨n, hwithin⟩, hinv⟩
  cases queue with
  | nil =>
      refine ⟨hready, nofun, ⟨entries, rfl, hwalking.walked, .inr hwalking.entries.length_eq⟩, ?_⟩
      exact fun hl hverbatim ↦
        (finds_of_inv (hinv hl hverbatim) hwithin.length_lt).perm (List.mergeSort_perm ..)
  | cons current queue =>
      have hplace : location root directory <+: location root current :=
        (List.prefix_append_right_inj _).mpr (hwithin.queue_beneath current List.mem_cons_self)
      have hcurrent (hrecursive : recursive = false) :
          location root current = location root directory := by
        have hmem : location root current ∈ (server w₁).listings.map Prod.fst ++
            (current :: queue).map (location root) := by simp
        rwa [hwalking.shallow hrecursive, List.mem_singleton] at hmem
      refine (hread w₁ current hready).bind ?_
      rintro (err | children) w₂ ⟨hready, hr⟩
      · obtain ⟨hconnection, hserver, hmissing⟩ := hr
        refine ⟨hready, fun e he ↦ Except.error.inj he ▸ hconnection, fun hl ↦ ?_⟩
        have hmissing := hmissing hl
        rw [hwalking.tree_eq] at hmissing
        rw [hserver]
        -- the directory itself is there, and what was found is unless a name was altered
        cases hrecursive : recursive with
        | false => exact absurd (hcurrent hrecursive ▸ hdirectory hl) hmissing
        | true =>
            by_contra hnone
            have hinv := hinv hl fun name hname ↦ by
              by_contra haltered
              obtain ⟨x, hx, child, hchild, rfl⟩ := mem_namesRead.mp hname
              refine hnone ⟨x.1, child.name, ?_, hname, .inr ⟨rfl, haltered⟩⟩
              exact (hwalking.listings x hx).beneath (hwalking.places x hx) (by simp) hchild
            exact hmissing (hinv.lookup_of_due (hinv.queue_due _ List.mem_cons_self))
      · obtain ⟨hlisting, hserver⟩ := hr
        rw [hwalking.tree_eq] at hlisting
        have hbound := hwithin.visitDirectory C.linkIsDenied recursive children
        have hwalk := hwalking.visitDirectory C.linkIsDenied limit
          (hwithin.queue_beneath current List.mem_cons_self) hlisting
        rw [← hserver] at hwalk
        have hnames : namesRead (server w₂).listings =
            namesRead (server w₁).listings ++ children.map Child.name := by
          rw [hserver, Server.listed, namesRead, List.flatMap_append, List.flatMap_singleton]
          rfl
        have hnew (child : Child) (hchild : child ∈ children) :
            child.name ∈ namesRead (server w₂).listings :=
          hnames ▸ List.mem_append_right _ (List.mem_map_of_mem hchild)
        have hfind (hl : live)
            (hverbatim : ∀ name ∈ namesRead (server w₂).listings, Verbatim name) :=
          visitDirectory_finds C.linkIsDenied
            (hinv hl fun name hname ↦ hverbatim name (hnames ▸ List.mem_append_left _ hname))
            hwithin.length_lt hlisting fun child hchild ↦ hverbatim _ (hnew child hchild)
        refine Ensures.ret ?_
        generalize Remote.visitDirectory C.linkIsDenied recursive limit current queue entries
          children = result at hwalk hfind hbound ⊢
        rcases result with ⟨queue', entries'⟩ | err | entries'
        · exact ⟨⟨hready, hwalk, ⟨n + 1, hbound.1⟩, hfind⟩, fun _ ↦ hbound.2⟩
        · obtain ⟨child, hchild, ⟨hlink, rfl⟩ | ⟨e, hjoin, rfl⟩⟩ := hwalk
          · obtain ⟨object, -, hobject⟩ := hlisting.describes child hchild
            cases hlink.symm.trans hobject.noLink
          · refine ⟨hready, fun err' herr ↦ Except.error.inj herr ▸ hpath e, fun _ ↦ ⟨_, child.name,
              hlisting.beneath hplace hcurrent hchild, hnew child hchild, .inl fun h ↦ ?_⟩⟩
            obtain ⟨joined, hjoined⟩ := (current.exists_join_iff child.name).mpr h
            cases hjoin.symm.trans hjoined
        · obtain ⟨made, rfl, hwalked, hfull⟩ := hwalk
          exact ⟨hready, nofun, ⟨made, rfl, hwalked, .inl (hfull hwithin.length_lt)⟩, hfind⟩

end Program

section Call

variable {S : Sig} {Tid St V : Type} {C : Client S} {M : Machine S Tid St} {x : C.Runs M}
  {serves : St → Answers S V} {server : V → Server} {K : St → Prop} {P live : Prop} {t : Tid}
  {root : Str} {ctx : Ctx} {recursive : Bool} {limit : Int} {directory : Path} {w : St × V}

/-- A server without faults answers the requests for directories. -/
def Client.Runs.Reads (x : C.Runs M) (serves : St → Answers S V) (server : V → Server)
    (K : St → Prop) (P live : Prop) (t : Tid) (root : Str) (ctx : Ctx) : Prop :=
  ∀ session (w : St × V) current, (P → x.Idle K ctx false w.1) →
    Ensures (x.alone false serves t) live (C.readDir ctx session (remoteName root current)) w
      fun r (w' : St × V) ↦ (P → x.Idle K ctx false w'.1) ∧ match r with
        | .ok children => Listing (server w.2).tree (location root current) children ∧
          server w'.2 = (server w.2).listed (location root current) children
        | .error err => C.isConnectionError err = false ∧ server w'.2 = server w.2 ∧
          (live → (server w.2).tree.lookup (location root current) ≠ some .directory)

/-- The session of `List`. -/
theorem Client.Runs.ensures_list (h : x.Served false serves server)
    (ha : x.Assumes false K P live) (hread : x.Reads serves server K P live t root ctx)
    (hpath : ∀ e : PathError, C.isConnectionError e.err = false) (hlimit : 0 < limit)
    (hdirectory : live → (server w.2).tree.lookup (location root directory) = some .directory)
    (hlistings : (server w.2).listings = []) (hw : P → x.Idle K ctx false w.1) :
    Ensures (x.alone false serves t) live
      (C.withSession ctx true (C.listTree root ctx directory recursive limit)) w
      fun r (w' : St × V) ↦ (P → x.Idle K ctx false w'.1) ∧
        Searched live root (server w.2).tree recursive limit directory (server w'.2) r := by
  refine (ensures_withSession h ha (Q := fun r v ↦
    (∀ err, r = .error err → C.isConnectionError err = false) ∧
      Searched live root (server w.2).tree recursive limit directory (server v) r)
    (fun err v hr ↦ hr.1 err rfl) ?_ true hw).mono ?_
  · intro session w₁ houtside h₁
    refine Ensures.bind (K := fun r (w' : St × V) ↦ x.Goes K P ctx false w₁ w' ∧ r = none) ?_ ?_
    · split
      · exact ⟨⟨rfl, h₁⟩, rfl⟩
      · exact (ensures_rejectLinks h ha session _ h₁).mono fun _ _ hr ↦ ⟨hr.1, hr.2 rfl⟩
    · rintro _ w₂ ⟨h₂, rfl⟩
      have hserver : server w₂.2 = server w.2 := by rw [h₂.outside, houtside]
      rw [← hserver] at hdirectory hlistings ⊢
      exact ensures_walk (hread session) hpath hlimit hdirectory hlistings h₂.idle
  · rintro (err | entries) w₁ ⟨h₁, hr⟩
    · exact ⟨h₁, fun hl ↦ (hr (ha.live hl)).2 hl⟩
    · exact ⟨h₁, hr.2⟩

end Call

/-! ## Exact listings -/

/-- The listing of a directory: in the order of the paths, what is beneath it with
kinds and sizes, as much as the limit allows. -/
structure IsListing (root : Str) (tree : FileTree) (recursive : Bool) (limit : Int)
    (directory : Path) (entries : List Entry) : Prop where
  increasing : entries.Pairwise fun left right ↦ left.path.value < right.path.value
  beneath : ∀ entry ∈ entries,
    tree.Beneath recursive (location root directory) (location root entry.path)
  fits : ∀ entry ∈ entries, ∃ object,
    tree.lookup (location root entry.path) = some object ∧ entry.Fits object
  length_eq : entries.length = min limit (tree.size recursive (location root directory))
  complete : tree.size recursive (location root directory) ≤ limit → ∀ l,
    tree.Beneath recursive (location root directory) l →
      ∃ entry ∈ entries, location root entry.path = l

section Exact

variable {root : Str} {tree : FileTree} {recursive : Bool} {limit : Int} {directory : Path}
  {entries made : List Entry} {v : Server}

theorem pairwise_sortEntries (entries : List Entry) :
    (sortEntries entries).Pairwise fun left right ↦ left.path.value ≤ right.path.value := by
  refine (List.pairwise_mergeSort ?_ ?_ entries).imp of_decide_eq_true
  · intro a b c hab hbc
    exact decide_eq_true ((of_decide_eq_true hab).trans (of_decide_eq_true hbc))
  · intro a b
    rw [← Bool.decide_or]
    exact decide_eq_true (le_total ..)

/-- `ParsePath` accepts every name beneath a directory and leaves it as it is. -/
def Listable (root : Str) (tree : FileTree) (recursive : Bool) (directory : Path) : Prop :=
  ∀ l name, tree.Beneath recursive (location root directory) (l ++ [name]) → Verbatim name

theorem Walked.verbatim (h : Walked root tree recursive directory made v)
    (hlistable : Listable root tree recursive directory) :
    ∀ name ∈ namesRead v.listings, Verbatim name := by
  intro name hname
  obtain ⟨x, hx, child, hchild, rfl⟩ := mem_namesRead.mp hname
  refine hlistable x.1 child.name ((h.listings x hx).beneath (h.places x hx) ?_ hchild)
  intro hrecursive
  have hmem := List.mem_map_of_mem (f := Prod.fst) hx
  rwa [h.shallow hrecursive, List.mem_singleton] at hmem

/-- If no name was altered, the path of an entry leads to the child that it was made of. -/
theorem Walked.exists_child (h : Walked root tree recursive directory made v)
    (hverbatim : ∀ name ∈ namesRead v.listings, Verbatim name) {entry : Entry}
    (hentry : entry ∈ made) : ∃ l name object, name ∈ namesRead v.listings ∧
      location root entry.path = l ++ [name] ∧
      tree.lookup (location root entry.path) = some object ∧ entry.Fits object := by
  obtain ⟨⟨_, child⟩, hshown, current, rfl, hmade⟩ := exists_of_forall₂ h.entries hentry
  obtain ⟨object, hlookup, hdescribes⟩ := h.describes _ hshown
  have hname : child.name ∈ namesRead v.listings := by
    obtain ⟨x, hx, hmem⟩ := List.mem_flatMap.mp (List.mem_of_mem_take hshown)
    obtain ⟨_, hchild, heq⟩ := List.mem_map.mp hmem
    obtain ⟨-, rfl⟩ := Prod.mk.inj heq
    exact mem_namesRead.mpr ⟨x, hx, _, List.mem_mergeSort.mp hchild, rfl⟩
  have hlocation : location root entry.path = location root current ++ [child.name] := by
    refine (location_join_iff root ?_ hmade.join_eq).mpr (hverbatim _ hname).noBackslash
    exact FileTree.isName_of_lookup (by rw [hlookup]; exact nofun)
  exact ⟨_, child.name, object, hname, hlocation, hlocation ▸ hlookup, hmade.fits hdescribes⟩

/-- What a walk finds is a listing. -/
theorem Finds.isListing (h : Finds root tree recursive limit directory (sortEntries made))
    (hwalked : Walked root tree recursive directory made v)
    (hverbatim : ∀ name ∈ namesRead v.listings, Verbatim name) :
    IsListing root tree recursive limit directory (sortEntries made) where
  increasing := by
    have hne : (sortEntries made).Pairwise fun left right ↦ left.path ≠ right.path := by
      refine (List.pairwise_map.mp h.nodup).imp fun hne heq ↦ hne ?_
      rw [heq]
    refine ((pairwise_sortEntries made).and hne).imp fun ⟨hle, hne⟩ ↦ lt_of_le_of_ne hle ?_
    exact fun heq ↦ hne (Path.ext heq)
  beneath entry hentry := h.beneath _ (List.mem_map_of_mem hentry)
  fits entry hentry := by
    obtain ⟨-, -, object, -, -, hfits⟩ := hwalked.exists_child hverbatim
      ((List.mergeSort_perm ..).mem_iff.mp hentry)
    exact ⟨object, hfits⟩
  length_eq := h.length_eq
  complete hlimit l hl := List.mem_map.mp ((h.mem_iff hlimit).mpr hl)

/-- What a listing has to be. -/
def IsExact (root : Str) (tree : FileTree) (recursive : Bool) (limit : Int) (directory : Path)
    (r : Except Err (List Entry)) : Prop :=
  ∃ entries, r = .ok entries ∧ IsListing root tree recursive limit directory entries

variable {live : Prop} {r : Except Err (List Entry)}
  (h : Searched live root tree recursive limit directory v r) (hl : live)
include h hl

/-- If no name beneath the directory is altered, the listing is exact. -/
theorem Searched.isExact (hlistable : Listable root tree recursive directory) :
    IsExact root tree recursive limit directory r := by
  cases r with
  | error err =>
      obtain ⟨l, name, hbeneath, -, haltered⟩ := h hl
      have hverbatim := hlistable l name hbeneath
      rcases haltered with hrejected | ⟨-, haltered⟩
      · exact absurd hverbatim.accepted hrejected
      · exact absurd hverbatim haltered
  | ok entries =>
      obtain ⟨⟨made, rfl, hwalked, -⟩, hfinds⟩ := h
      have hverbatim := hwalked.verbatim hlistable
      exact ⟨_, rfl, (hfinds hl hverbatim).isListing hwalked hverbatim⟩

/-- If the limit allows everything, then a name that is altered is read. -/
theorem Searched.exists_altered (hsize : tree.size recursive (location root directory) ≤ limit)
    (hnot : ¬Listable root tree recursive directory) :
    ∃ name ∈ namesRead v.listings, ¬Verbatim name := by
  cases r with
  | error err =>
      obtain ⟨-, name, -, hread, haltered⟩ := h hl
      exact ⟨name, hread, haltered.elim (fun h hv ↦ h hv.accepted) And.right⟩
  | ok entries =>
      obtain ⟨⟨made, rfl, hwalked, -⟩, hfinds⟩ := h
      by_contra hnone
      have hverbatim : ∀ name ∈ namesRead v.listings, Verbatim name := fun name hname ↦ by
        by_contra haltered
        exact hnone ⟨name, hname, haltered⟩
      refine hnot fun l name hbeneath ↦ ?_
      -- everything is found, and what is found was made of a name that was read
      have hmem := ((hfinds hl hverbatim).mem_iff hsize).mpr hbeneath
      obtain ⟨entry, hentry, heq⟩ := List.mem_map.mp hmem
      obtain ⟨l', name', -, hread, hlocation, -⟩ := hwalked.exists_child hverbatim
        ((List.mergeSort_perm ..).mem_iff.mp hentry)
      obtain ⟨-, hname⟩ := List.append_inj' (heq.symm.trans hlocation) rfl
      exact List.singleton_inj.mp hname ▸ hverbatim _ hread

end Exact

end GoFilesystem.Remote
