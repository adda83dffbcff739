import GoFilesystem.Posix.FileTree

/-!
# Walking a directory

A walk of a directory keeps a queue of directories to read and the locations it has
found.  In each round it reads the first directory of the queue; if it is recursive,
the directories it finds there go to the end of the queue.

The invariant `Inv` says that nothing is found twice and that a directory to be read
is either in the queue, and nothing in it is found, or everything in it is.  When the
queue is empty, the walk has found exactly what it is for (`Inv.mem_found_iff`).
-/

namespace GoFilesystem.Posix

open Go

variable {x : Location}

namespace FileTree

variable (tree : FileTree) (recursive : Bool) (start : Location)

/-- What a walk from `start` is to find. -/
structure Beneath (l : Location) : Prop where
  exists_lookup : tree.lookup l ≠ none
  isPrefix : start <+: l
  ne : l ≠ start
  length_eq : recursive = false → l.length = start.length + 1

instance (l : Location) : Decidable (tree.Beneath recursive start l) :=
  decidable_of_iff (tree.lookup l ≠ none ∧ start <+: l ∧ l ≠ start ∧
    (recursive = false → l.length = start.length + 1))
    ⟨fun h ↦ ⟨h.1, h.2.1, h.2.2.1, h.2.2.2⟩,
      fun h ↦ ⟨h.exists_lookup, h.isPrefix, h.ne, h.length_eq⟩⟩

/-- How much a walk from `start` is to find. -/
def size : Nat :=
  (tree.objects.keys.filter fun l ↦ tree.Beneath recursive start l).card

def children (l : Location) (names : List Str) : List Location :=
  names.map fun name ↦ l ++ [name]

def directories (found : List Location) : List Location :=
  found.filter fun l ↦ tree.lookup l = some .directory

variable {tree recursive start} {l : Location} {names : List Str} {found : List Location}

theorem mem_children : x ∈ children l names ↔ ∃ name ∈ names, x = l ++ [name] := by
  unfold children
  simp only [List.mem_map, eq_comm]

theorem mem_directories :
    x ∈ tree.directories found ↔ x ∈ found ∧ tree.lookup x = some .directory := by
  unfold directories
  rw [List.mem_filter, decide_eq_true_iff]

theorem nodup_children (h : names.Nodup) : (children l names).Nodup :=
  h.map fun _ _ heq ↦ List.singleton_inj.mp (List.append_cancel_left heq)

theorem Beneath.mem_keys (h : tree.Beneath recursive start l) : l ∈ tree.objects.keys := by
  have hne : l ≠ [] := by
    rintro rfl
    exact h.ne (List.prefix_nil.mp h.isPrefix).symm
  have hlookup := h.exists_lookup
  rw [lookup_of_ne_nil _ hne] at hlookup
  obtain ⟨object, hobject⟩ := Option.ne_none_iff_exists'.mp hlookup
  exact Finmap.mem_keys.mpr (Finmap.mem_of_lookup_eq_some hobject)

theorem toFinset_subset (hbeneath : ∀ l ∈ found, tree.Beneath recursive start l) :
    found.toFinset ⊆ tree.objects.keys.filter fun l ↦ tree.Beneath recursive start l := by
  intro l hl
  have h := hbeneath l (List.mem_toFinset.mp hl)
  exact Finset.mem_filter.mpr ⟨h.mem_keys, h⟩

theorem length_le_size (hnodup : found.Nodup)
    (hbeneath : ∀ l ∈ found, tree.Beneath recursive start l) :
    found.length ≤ tree.size recursive start := by
  rw [← List.toFinset_card_of_nodup hnodup]
  exact Finset.card_le_card (toFinset_subset hbeneath)

/-- Whoever has found as much as there is has found everything. -/
theorem mem_of_size_le (hnodup : found.Nodup)
    (hbeneath : ∀ l ∈ found, tree.Beneath recursive start l)
    (hsize : tree.size recursive start ≤ found.length) (hl : tree.Beneath recursive start l) :
    l ∈ found := by
  rw [← List.toFinset_card_of_nodup hnodup] at hsize
  have heq := Finset.eq_of_subset_of_card_le (toFinset_subset hbeneath) hsize
  have hmem : l ∈ found.toFinset := heq ▸ Finset.mem_filter.mpr ⟨hl.mem_keys, hl⟩
  exact List.mem_toFinset.mp hmem

theorem length_eq_size (hnodup : found.Nodup)
    (hfound : ∀ l, l ∈ found ↔ tree.Beneath recursive start l) :
    found.length = tree.size recursive start := by
  rw [← List.toFinset_card_of_nodup hnodup]
  refine congrArg Finset.card ((toFinset_subset fun l ↦ (hfound l).mp).antisymm fun l hl ↦ ?_)
  exact List.mem_toFinset.mpr ((hfound l).mpr (Finset.mem_filter.mp hl).2)

end FileTree

structure Walk where
  queue : List Location
  found : List Location

namespace Walk

open FileTree

variable (tree : FileTree) (recursive : Bool) (start : Location)

def next (l : Location) (names : List Str) (w : Walk) : Walk where
  queue := w.queue ++ if recursive then tree.directories (children l names) else []
  found := w.found ++ children l names

def Due (found : List Location) (l : Location) : Prop :=
  l = start ∨ (recursive = true ∧ l ∈ found ∧ tree.lookup l = some .directory)

structure Inv (w : Walk) : Prop where
  start_directory : tree.lookup start = some .directory
  found_nodup : w.found.Nodup
  queue_nodup : w.queue.Nodup
  queue_due : ∀ l ∈ w.queue, Due tree recursive start w.found l
  beneath : ∀ l ∈ w.found, tree.Beneath recursive start l
  parent_due : ∀ l name, l ++ [name] ∈ w.found → Due tree recursive start w.found l
  /-- A directory in the queue has not been read. -/
  unread : ∀ l ∈ w.queue, ∀ name, l ++ [name] ∉ w.found
  /-- A directory that is not in the queue has been read. -/
  closed : ∀ l, Due tree recursive start w.found l → l ∉ w.queue → ∀ name,
    tree.lookup (l ++ [name]) ≠ none → l ++ [name] ∈ w.found

variable {tree recursive start} {w : Walk} {l : Location} {queue found found' : List Location}
  {names : List Str}

theorem Due.mono (h : Due tree recursive start found l) (hsub : found ⊆ found') :
    Due tree recursive start found' l :=
  h.imp_right fun h ↦ ⟨h.1, hsub h.2.1, h.2.2⟩

theorem Inv.lookup_of_due (h : Inv tree recursive start w)
    (hl : Due tree recursive start w.found l) :
    tree.lookup l = some .directory := by
  rcases hl with rfl | ⟨-, -, hdir⟩
  · exact h.start_directory
  · exact hdir

theorem Inv.extends_of_due (h : Inv tree recursive start w)
    (hl : Due tree recursive start w.found l) : start <+: l := by
  rcases hl with rfl | ⟨-, hmem, -⟩
  · exact List.prefix_rfl
  · exact (h.beneath l hmem).isPrefix

theorem inv_start (hstart : tree.lookup start = some .directory) :
    Inv tree recursive start ⟨[start], []⟩ where
  start_directory := hstart
  found_nodup := List.nodup_nil
  queue_nodup := List.nodup_singleton start
  queue_due l hl := .inl (List.mem_singleton.mp hl)
  beneath _ hl := absurd hl List.not_mem_nil
  parent_due _ _ hl := absurd hl List.not_mem_nil
  unread _ _ _ := List.not_mem_nil
  closed l hl hqueue := by
    rcases hl with rfl | ⟨-, hmem, -⟩
    · exact absurd (List.mem_singleton.mpr rfl) hqueue
    · exact absurd hmem List.not_mem_nil

section Next

variable (h : Inv tree recursive start ⟨l :: queue, found⟩) (hnames : tree.Lists l names)

include h in
/-- What is in a directory of the queue is no directory of the queue. -/
theorem Inv.ne_of_due {name : Str} (hx : Due tree recursive start found x) : x ≠ l ++ [name] := by
  rintro rfl
  rcases hx with hstart | ⟨-, hmem, -⟩
  · have hprefix := h.extends_of_due (h.queue_due l List.mem_cons_self)
    have hlength := hprefix.length_le
    rw [← hstart, List.length_append, List.length_singleton] at hlength
    omega
  · exact h.unread l List.mem_cons_self name hmem

include h hnames in
theorem Inv.beneath_children (hx : x ∈ children l names) : tree.Beneath recursive start x := by
  obtain ⟨name, hname, rfl⟩ := mem_children.mp hx
  have hdue := h.queue_due l List.mem_cons_self
  refine ⟨(hnames.mem_iff name).mp hname,
    (h.extends_of_due hdue).trans (List.prefix_append ..), ?_, ?_⟩
  · exact (h.ne_of_due (.inl rfl)).symm
  · intro hrecursive
    rcases hdue with rfl | ⟨htrue, -, -⟩
    · simp
    · exact nomatch hrecursive.symm.trans htrue

include h hnames in
theorem Inv.found_nodup_append : (found ++ children l names).Nodup := by
  refine List.nodup_append'.mpr ⟨h.found_nodup, nodup_children hnames.nodup, ?_⟩
  intro x hx hchild
  obtain ⟨name, -, rfl⟩ := mem_children.mp hchild
  exact h.unread l List.mem_cons_self name hx

include h hnames in
theorem Inv.next : Inv tree recursive start (next tree recursive l names ⟨queue, found⟩) := by
  obtain ⟨hl, hqueue⟩ := List.nodup_cons.mp h.queue_nodup
  have hdue := h.queue_due l List.mem_cons_self
  have hsub : found ⊆ found ++ children l names := List.subset_append_left ..
  -- What the round adds to the queue.
  have hnew : ∀ x ∈ (if recursive then tree.directories (children l names) else []),
      recursive = true ∧ x ∈ children l names ∧ tree.lookup x = some .directory := by
    intro x hx
    cases hrecursive : recursive with
    | false => exact absurd (hrecursive ▸ hx) List.not_mem_nil
    | true =>
        rw [hrecursive] at hx
        exact ⟨rfl, mem_directories.mp hx⟩
  refine ⟨h.start_directory, h.found_nodup_append hnames, ?_, ?_, ?_, ?_, ?_, ?_⟩
  · refine List.nodup_append'.mpr ⟨hqueue, ?_, fun x hx hx' ↦ ?_⟩
    · split
      · exact (nodup_children hnames.nodup).filter _
      · exact List.nodup_nil
    · obtain ⟨-, hchild, -⟩ := hnew x hx'
      obtain ⟨name, -, rfl⟩ := mem_children.mp hchild
      exact h.ne_of_due (h.queue_due _ (List.mem_cons_of_mem _ hx)) rfl
  · intro x hx
    rcases List.mem_append.mp hx with hx | hx
    · exact (h.queue_due x (List.mem_cons_of_mem _ hx)).mono hsub
    · obtain ⟨hrecursive, hchild, hdir⟩ := hnew x hx
      exact .inr ⟨hrecursive, List.mem_append_right _ hchild, hdir⟩
  · intro x hx
    rcases List.mem_append.mp hx with hx | hx
    · exact h.beneath x hx
    · exact h.beneath_children hnames hx
  · intro x name hx
    rcases List.mem_append.mp hx with hx | hx
    · exact (h.parent_due x name hx).mono hsub
    · obtain ⟨name', -, heq⟩ := mem_children.mp hx
      obtain ⟨rfl, -⟩ := List.append_inj' heq rfl
      exact hdue.mono hsub
  · intro x hx name hmem
    rcases List.mem_append.mp hx with hold | hx
    · rcases List.mem_append.mp hmem with hmem | hmem
      · exact h.unread x (List.mem_cons_of_mem _ hold) name hmem
      · obtain ⟨name', -, heq⟩ := mem_children.mp hmem
        obtain ⟨rfl, -⟩ := List.append_inj' heq rfl
        exact hl hold
    · obtain ⟨-, hchild, -⟩ := hnew x hx
      obtain ⟨m, -, rfl⟩ := mem_children.mp hchild
      rcases List.mem_append.mp hmem with hmem | hmem
      · exact h.ne_of_due (h.parent_due _ name hmem) rfl
      · obtain ⟨name', -, heq⟩ := mem_children.mp hmem
        have hlength := congrArg List.length heq
        simp at hlength
  · intro x hx hx' name hlookup
    by_cases hxl : x = l
    · subst hxl
      exact List.mem_append_right _ (mem_children.mpr
        ⟨name, (hnames.mem_iff name).mpr hlookup, rfl⟩)
    · have hold : Due tree recursive start found x → x ++ [name] ∈ found ++ children l names := by
        intro hx
        refine List.mem_append_left _ (h.closed x hx ?_ name hlookup)
        exact fun hmem ↦ (List.mem_cons.mp hmem).elim hxl fun hmem ↦
          hx' (List.mem_append_left _ hmem)
      rcases hx with rfl | ⟨hrecursive, hmem, hdir⟩
      · exact hold (.inl rfl)
      · rcases List.mem_append.mp hmem with hmem | hmem
        · exact hold (.inr ⟨hrecursive, hmem, hdir⟩)
        · refine absurd (List.mem_append_right _ ?_) hx'
          rw [if_pos hrecursive]
          exact mem_directories.mpr ⟨hmem, hdir⟩

end Next

/-- At the end the walk has found what it is for. -/
theorem Inv.mem_found_iff (h : Inv tree recursive start ⟨[], found⟩) :
    l ∈ found ↔ tree.Beneath recursive start l := by
  refine ⟨h.beneath l, fun hl ↦ ?_⟩
  obtain ⟨names, rfl⟩ := hl.isPrefix
  have hnames : names ≠ [] := by
    rintro rfl
    exact hl.ne (List.append_nil _)
  induction names using List.reverseRecOn with
  | nil => exact absurd rfl hnames
  | append_singleton names name ih =>
      rw [← List.append_assoc]
      have hlookup := hl.exists_lookup
      rw [← List.append_assoc] at hlookup
      refine h.closed _ ?_ List.not_mem_nil name hlookup
      by_cases hnil : names = []
      · exact .inl (by rw [hnil, List.append_nil])
      · -- Only a recursive walk goes further down than one name.
        have hrecursive : recursive = true := by
          by_contra hfalse
          have hlength := hl.length_eq (Bool.not_eq_true _ ▸ hfalse)
          have hpos := List.length_pos_of_ne_nil hnil
          simp only [List.length_append, List.length_singleton] at hlength
          omega
        have hdir := lookup_parent hlookup
        refine .inr ⟨hrecursive, ih ⟨by simp [hdir], List.prefix_append .., ?_, ?_⟩ hnil, hdir⟩
        · simpa using hnil
        · exact fun hfalse ↦ nomatch hfalse.symm.trans hrecursive

end Walk

end GoFilesystem.Posix
