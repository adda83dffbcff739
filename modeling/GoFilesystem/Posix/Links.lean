import GoFilesystem.Go.Elements
import GoFilesystem.Posix.FileTree

/-!
# Symbolic links

A tree of directories, files and symbolic links, and what a system call makes of a
name in it.  A link is followed by going on with the elements of its target, from
where the link stands or from the root.  Only so many links are followed, and a
`confined` resolution does not leave the root; links may dangle and may form cycles.

| resolution of a name | follows the last element |
| --- | --- |
| `resolve`, `stat`, `readDir` | yes |
| `entry`, `lstat` | no |
-/

namespace GoFilesystem.Posix

open Go

/-- What an object is. -/
inductive Kind where
  | directory
  | file
  | link (target : Str)
deriving DecidableEq

def Kind.isLink : Kind → Bool
  | .link _ => true
  | _ => false

/-- An object: what it is, and what a description of it tells. -/
structure Item where
  kind : Kind
  size : Nat := 0
  modified : Int := 0
  /-- Whether the directory can be read. -/
  readable : Bool := true
deriving DecidableEq

/-- The objects beneath a root directory, which is one itself. -/
structure LinkTree where
  items : GoMap Location Item
  /-- The root. -/
  top : Item
  root : [] ∉ items
  directory : top.kind = .directory
  isName : ∀ l name, l ++ [name] ∈ items → IsName name
  parent : ∀ l name, l ++ [name] ∈ items →
    l = [] ∨ ∃ item, items.lookup l = some item ∧ item.kind = .directory

inductive Unresolved where
  | missing
  | notDirectory
  | tooManyLinks
  | escapes
deriving DecidableEq

/-- How links are followed. -/
structure Following where
  /-- The number of links that are followed at most. -/
  limit : Nat
  /-- Whether a link must not lead out of the root. -/
  confined : Bool

/-- A name spells a location if its elements are those of the location, maybe after
some that stand for nothing. -/
structure Spells (name : Str) (l : Location) : Prop where
  isName : ∀ x ∈ l, IsName x
  splitOn : ∃ skipped, (∀ x ∈ skipped, x = [] ∨ x = PathName.current) ∧
    name.splitOn slash = skipped ++ l

theorem spells_intercalate {l : Location} (hl : ∀ x ∈ l, IsName x) (hne : l ≠ []) :
    Spells ([slash].intercalate l) l := by
  refine ⟨hl, [], nofun, ?_⟩
  exact List.splitOn_intercalate slash (fun x hx ↦ (hl x hx).noSlash) hne

/-! ## Trees -/

namespace LinkTree

variable (tree : LinkTree)

def lookup (l : Location) : Option Item :=
  if l = [] then some tree.top else tree.items.lookup l

def kindAt (l : Location) : Option Kind := (tree.lookup l).map Item.kind

section Lookup

variable {tree} {l l' : Location} {name : Str} {item : Item}

theorem lookup_append_singleton (l : Location) (name : Str) :
    tree.lookup (l ++ [name]) = tree.items.lookup (l ++ [name]) :=
  if_neg (by simp)

theorem kindAt_eq_some {kind : Kind} :
    tree.kindAt l = some kind ↔ ∃ item, tree.lookup l = some item ∧ item.kind = kind :=
  Option.map_eq_some_iff

theorem kindAt_of_lookup (h : tree.lookup l = some item) : tree.kindAt l = some item.kind :=
  kindAt_eq_some.mpr ⟨item, h, rfl⟩

theorem mem_of_lookup (h : tree.lookup (l ++ [name]) ≠ none) : l ++ [name] ∈ tree.items := by
  rw [lookup_append_singleton] at h
  obtain ⟨item, hitem⟩ := Option.ne_none_iff_exists'.mp h
  exact Finmap.mem_of_lookup_eq_some hitem

theorem isName_of_lookup (h : tree.lookup (l ++ [name]) ≠ none) : IsName name :=
  tree.isName l name (mem_of_lookup h)

end Lookup

/-! ## Directories -/

/-- The names in a directory, in increasing order. -/
def names (l : Location) : List Str :=
  ((tree.items.keys.filter fun l' ↦ l'.dropLast = l).image fun l' ↦ l'.getLastD []).sort (· ≤ ·)

theorem mem_names {l : Location} {name : Str} :
    name ∈ tree.names l ↔ tree.lookup (l ++ [name]) ≠ none := by
  unfold names
  rw [Finset.mem_sort, Finset.mem_image]
  constructor
  · rintro ⟨l', hl', rfl⟩
    obtain ⟨hmem, rfl⟩ := Finset.mem_filter.mp hl'
    have hne : l' ≠ [] := by
      rintro rfl
      exact tree.root (Finmap.mem_keys.mp hmem)
    rw [List.getLastD_eq_getLast?, List.getLast?_eq_some_getLast hne, Option.getD_some,
      List.dropLast_append_getLast hne, lookup, if_neg hne]
    exact Option.isSome_iff_ne_none.mp (Finmap.lookup_isSome.mpr (Finmap.mem_keys.mp hmem))
  · intro h
    refine ⟨l ++ [name], Finset.mem_filter.mpr ⟨?_, List.dropLast_concat ..⟩, by simp⟩
    exact Finmap.mem_keys.mpr (mem_of_lookup h)

theorem pairwise_names (l : Location) : (tree.names l).Pairwise (· < ·) :=
  (Finset.sortedLT_sort _).pairwise

/-- The objects in a directory with their names, in increasing order. -/
def children (l : Location) : List (Str × Item) :=
  (tree.names l).filterMap fun name ↦ (tree.lookup (l ++ [name])).map fun item ↦ (name, item)

theorem mem_children {l : Location} {name : Str} {item : Item} :
    (name, item) ∈ tree.children l ↔ tree.lookup (l ++ [name]) = some item := by
  unfold children
  rw [List.mem_filterMap]
  constructor
  · rintro ⟨name', -, hchild⟩
    obtain ⟨item', hitem, heq⟩ := Option.map_eq_some_iff.mp hchild
    cases heq
    exact hitem
  · intro h
    exact ⟨name, tree.mem_names.mpr (by rw [h]; exact nofun), by rw [h]; rfl⟩

/-- The children come in the order of their names. -/
theorem pairwise_children (l : Location) :
    (tree.children l).Pairwise fun child child' ↦ child.1 < child'.1 := by
  refine List.Pairwise.filterMap _ ?_ (tree.pairwise_names l)
  intro name name' hlt child hchild child' hchild'
  obtain ⟨item, -, rfl⟩ := Option.map_eq_some_iff.mp hchild
  obtain ⟨item', -, rfl⟩ := Option.map_eq_some_iff.mp hchild'
  exact hlt

variable {tree} in
theorem children_eq {l : Location} {children : List (Str × Item)}
    (hsorted : children.Pairwise fun child child' ↦ child.1 < child'.1)
    (h : ∀ child, tree.lookup (l ++ [child.1]) = some child.2 ↔ child ∈ children) :
    tree.children l = children := by
  refine List.Perm.eq_of_pairwise ?_ (tree.pairwise_children l) hsorted ?_
  · exact fun child child' _ _ hlt hlt' ↦ absurd hlt hlt'.asymm
  · refine (List.perm_ext_iff_of_nodup ?_ ?_).mpr fun child ↦ ?_
    · exact (tree.pairwise_children l).imp fun {child child'} hlt heq ↦ (heq ▸ hlt).false
    · exact hsorted.imp fun {child child'} hlt heq ↦ (heq ▸ hlt).false
    · exact tree.mem_children.trans (h child)

abbrev atRoot (child : Str × Item) : Sigma fun _ : Location ↦ Item := ⟨[child.1], child.2⟩

theorem mem_toFinmap_atRoot {children : List (Str × Item)} {l : Location} :
    l ∈ (children.map atRoot).toFinmap ↔ ∃ child ∈ children, [child.1] = l := by
  rw [Finmap.mem_list_toFinmap]
  constructor
  · rintro ⟨item, hmem⟩
    obtain ⟨child, hchild, heq⟩ := List.mem_map.mp hmem
    exact ⟨child, hchild, (Sigma.mk.inj heq).1⟩
  · rintro ⟨child, hchild, rfl⟩
    exact ⟨child.2, List.mem_map_of_mem hchild⟩

/-- A root that can be read, with objects in it. -/
def flat (children : List (Str × Item)) (hname : ∀ child ∈ children, IsName child.1) :
    LinkTree where
  items := (children.map atRoot).toFinmap
  top := { kind := .directory }
  root h := by
    obtain ⟨_, _, ⟨⟩⟩ := mem_toFinmap_atRoot.mp h
  directory := rfl
  isName l name h := by
    obtain ⟨child, hchild, heq⟩ := mem_toFinmap_atRoot.mp h
    obtain ⟨-, rfl⟩ := List.append_singleton_inj.mp ((List.nil_append _).trans heq)
    exact hname child hchild
  parent l name h := by
    obtain ⟨child, -, heq⟩ := mem_toFinmap_atRoot.mp h
    exact .inl (List.append_singleton_inj.mp ((List.nil_append _).trans heq)).1.symm

theorem children_flat {children : List (Str × Item)} {hname : ∀ child ∈ children, IsName child.1}
    (hsorted : children.Pairwise fun child child' ↦ child.1 < child'.1) :
    (flat children hname).children [] = children := by
  refine children_eq hsorted fun child ↦ ?_
  have hkeys : (children.map atRoot).NodupKeys := by
    rw [List.NodupKeys, List.keys, List.map_map]
    exact List.pairwise_map.mpr (hsorted.imp fun hlt heq ↦ hlt.ne (List.singleton_inj.mp heq))
  rw [lookup_append_singleton, flat, Finmap.dlookup_list_toFinmap, List.nil_append]
  refine (List.mem_dlookup_iff hkeys).trans ⟨fun h ↦ ?_, List.mem_map_of_mem⟩
  obtain ⟨child', hchild', heq⟩ := List.mem_map.mp h
  obtain ⟨hname, hitem⟩ := Sigma.mk.inj heq
  rwa [Prod.ext (List.singleton_inj.mp hname) (eq_of_heq hitem)] at hchild'

/-! ## Changes -/

/-- Nothing becomes another kind of object. -/
def Same (tree' : LinkTree) : Prop := ∀ l, tree'.kindAt l = tree.kindAt l

/-- The tree after a change at one location. -/
def Puts (l : Location) (kind : Option Kind) (tree' : LinkTree) : Prop :=
  ∀ l', tree'.kindAt l' = if l' = l then kind else tree.kindAt l'

/-- The tree after what is at `a` and beneath it has come to `b`. -/
def Moves (a b : Location) (tree' : LinkTree) : Prop :=
  ∀ l, tree'.kindAt l =
    if b <+: l then tree.kindAt (a ++ l.drop b.length)
    else if a <+: l then none else tree.kindAt l

/-! ## Resolution -/

variable (f : Following)

/-- The elements of a name one after another, from a directory; `follow` goes on with
the elements of a link's target. -/
def walkFrom (follow : Location → List Str → Except Unresolved Location) :
    Location → List Str → Except Unresolved Location
  | l, [] => .ok l
  | l, element :: rest =>
    if element = [] ∨ element = PathName.current then walkFrom follow l rest
    else if element = PathName.parent then
      if l = [] ∧ f.confined then .error .escapes else walkFrom follow l.dropLast rest
    else
      match tree.kindAt (l ++ [element]) with
      | none => .error .missing
      | some .directory => walkFrom follow (l ++ [element]) rest
      | some .file => if rest = [] then .ok (l ++ [element]) else .error .notDirectory
      | some (.link target) =>
        if target.head? ≠ some slash then follow l (target.splitOn slash ++ rest)
        else if f.confined then .error .escapes
        else follow [] (target.splitOn slash ++ rest)

/-- The elements of a name from a directory, where at most `limit` links are followed. -/
def resolveFrom : Nat → Location → List Str → Except Unresolved Location
  | 0 => tree.walkFrom f fun _ _ ↦ .error .tooManyLinks
  | limit + 1 => tree.walkFrom f (resolveFrom limit)

def resolve (name : Str) : Except Unresolved Location :=
  tree.resolveFrom f f.limit [] (name.splitOn slash)

/-- The location of what a name stands for if the last element is not followed: it is in
the directory that the other elements stand for. -/
def entry (name : Str) : Except Unresolved Location :=
  let elements := name.splitOn slash
  let last := elements.getLastD []
  if last = [] ∨ last = PathName.current ∨ last = PathName.parent then tree.resolve f name
  else
    match tree.resolveFrom f f.limit [] elements.dropLast with
    | .error e => .error e
    | .ok l =>
      if tree.kindAt l = some .directory then .ok (l ++ [last]) else .error .notDirectory

def describe : Except Unresolved Location → Except Unresolved Item
  | .error e => .error e
  | .ok l =>
    match tree.lookup l with
    | none => .error .missing
    | some item => .ok item

/-- `stat`. -/
def stat (name : Str) : Except Unresolved Item := tree.describe (tree.resolve f name)

/-- `lstat`. -/
def lstat (name : Str) : Except Unresolved Item := tree.describe (tree.entry f name)

/-! ## Names of locations -/

variable {tree f} {l l' : Location} {names : List Str} {name : Str} {limit : Nat}
  {follow : Location → List Str → Except Unresolved Location}

/-- An element of a name that stands for an entry of a directory. -/
theorem walkFrom_cons (h : IsName name) (rest : List Str) :
    tree.walkFrom f follow l (name :: rest) =
      match tree.kindAt (l ++ [name]) with
      | none => .error .missing
      | some .directory => tree.walkFrom f follow (l ++ [name]) rest
      | some .file => if rest = [] then .ok (l ++ [name]) else .error .notDirectory
      | some (.link target) =>
        if target.head? ≠ some slash then follow l (target.splitOn slash ++ rest)
        else if f.confined then .error .escapes
        else follow [] (target.splitOn slash ++ rest) := by
  rw [walkFrom, if_neg, if_neg]
  · exact h.ne_parent
  · exact not_or.mpr ⟨h.ne_nil, h.ne_dot⟩

theorem walkFrom_skip {skipped : List Str} (h : ∀ x ∈ skipped, x = [] ∨ x = PathName.current)
    (rest : List Str) :
    tree.walkFrom f follow l (skipped ++ rest) = tree.walkFrom f follow l rest := by
  induction skipped with
  | nil => rfl
  | cons x skipped ih =>
      rw [List.cons_append, walkFrom, if_pos (h x List.mem_cons_self)]
      exact ih fun y hy ↦ h y (List.mem_cons_of_mem x hy)

theorem resolveFrom_skip {skipped : List Str} (h : ∀ x ∈ skipped, x = [] ∨ x = PathName.current)
    (limit : Nat) (rest : List Str) :
    tree.resolveFrom f limit l (skipped ++ rest) = tree.resolveFrom f limit l rest := by
  cases limit with
  | zero => exact walkFrom_skip h rest
  | succ limit => exact walkFrom_skip h rest

theorem resolve_eq (hname : Spells name l) :
    tree.resolve f name = tree.resolveFrom f f.limit [] l := by
  obtain ⟨skipped, hskipped, hsplit⟩ := hname.splitOn
  unfold resolve
  rw [hsplit, resolveFrom_skip hskipped]

theorem entry_eq {last : Str} (hname : Spells name (l ++ [last])) :
    tree.entry f name =
      match tree.resolveFrom f f.limit [] l with
      | .error e => .error e
      | .ok l =>
        if tree.kindAt l = some .directory then .ok (l ++ [last]) else .error .notDirectory := by
  obtain ⟨skipped, hskipped, hsplit⟩ := hname.splitOn
  have hlast := hname.isName last (by simp)
  have hspecial : ¬(last = [] ∨ last = PathName.current ∨ last = PathName.parent) := by
    rintro (heq | heq | heq)
    · exact hlast.ne_nil heq
    · exact hlast.ne_dot heq
    · exact hlast.ne_parent heq
  unfold entry
  rw [hsplit, ← List.append_assoc]
  dsimp only
  rw [List.getLastD_concat, List.dropLast_concat, if_neg hspecial, resolveFrom_skip hskipped]

/-- A directory in a directory that was reached. -/
theorem walkFrom_append_singleton
    (hfollow : ∀ l names l', follow l names = .ok l' → tree.kindAt l' = some .directory →
      tree.kindAt (l' ++ [name]) = some .directory →
        follow l (names ++ [name]) = .ok (l' ++ [name]))
    (hname : IsName name) (h : tree.walkFrom f follow l names = .ok l')
    (hl' : tree.kindAt l' = some .directory)
    (hkind : tree.kindAt (l' ++ [name]) = some .directory) :
    tree.walkFrom f follow l (names ++ [name]) = .ok (l' ++ [name]) := by
  induction names generalizing l with
  | nil =>
      cases h
      rw [List.nil_append, walkFrom_cons hname, hkind]
      rfl
  | cons x rest ih =>
      rw [List.cons_append]
      unfold walkFrom at h ⊢
      split at h
      · rename_i hskip
        rw [if_pos hskip]
        exact ih h
      rename_i hskip
      rw [if_neg hskip]
      split at h
      · rename_i hparent
        rw [if_pos hparent]
        split at h
        · contradiction
        · rename_i hconfined
          rw [if_neg hconfined]
          exact ih h
      rename_i hparent
      rw [if_neg hparent]
      cases hx : tree.kindAt (l ++ [x]) with
      | none =>
          rw [hx] at h
          contradiction
      | some kind =>
          rw [hx] at h
          cases kind with
          | directory => exact ih h
          | file =>
              -- The walk ended at this file, and it is not a directory.
              dsimp only at h
              split at h
              · cases h
                rw [hx] at hl'
                contradiction
              · contradiction
          | link target =>
              dsimp only at h ⊢
              rw [← List.append_assoc]
              split at h
              · rename_i hrelative
                rw [if_pos hrelative]
                exact hfollow _ _ _ h hl' hkind
              rename_i hrelative
              rw [if_neg hrelative]
              split at h
              · contradiction
              · rename_i hconfined
                rw [if_neg hconfined]
                exact hfollow _ _ _ h hl' hkind

theorem resolveFrom_append_singleton (hname : IsName name)
    (h : tree.resolveFrom f limit l names = .ok l') (hl' : tree.kindAt l' = some .directory)
    (hkind : tree.kindAt (l' ++ [name]) = some .directory) :
    tree.resolveFrom f limit l (names ++ [name]) = .ok (l' ++ [name]) := by
  induction limit generalizing l names l' with
  | zero => exact walkFrom_append_singleton (fun _ _ _ hfollow ↦ nomatch hfollow) hname h hl' hkind
  | succ limit ih =>
      exact walkFrom_append_singleton (fun _ _ _ hfollow hl' hkind ↦ ih hfollow hl' hkind) hname h
        hl' hkind

/-- What `lstat` finds at the name of an entry of a directory. -/
theorem lstat_of_resolve {last : Str} {item : Item} (hname : Spells name (names ++ [last]))
    (h : tree.resolveFrom f f.limit [] names = .ok l) (hl : tree.kindAt l = some .directory)
    (hitem : tree.lookup (l ++ [last]) = some item) : tree.lstat f name = .ok item := by
  unfold lstat
  rw [entry_eq hname, h]
  dsimp only
  rw [if_pos hl, describe, hitem]

end LinkTree

end GoFilesystem.Posix
