import GoFilesystem.Go.PathName

/-!
# The elements of a name

What a file system makes of a name with slashes: the elements between them, without
the empty ones and the dots.  As long as a name has no parent elements, the functions
of the package `path` do to the elements what they say.

| function | elements |
| --- | --- |
| `clean` | the same |
| `join` | one after another |
| `dir` | all but the last |
-/

namespace GoFilesystem.Go.PathName

/-- The elements of a name that stand for something. -/
def elements (name : Str) : List Str :=
  (name.splitOn slash).filter fun element ↦ element ≠ [] ∧ element ≠ current

def Plain (name : Str) : Prop := parent ∉ name.splitOn slash

variable {name a b element : Str} {names : List Str}

theorem elements_append_slash (a b : Str) :
    elements (a ++ slash :: b) = elements a ++ elements b := by
  unfold elements
  rw [List.splitOn_append_cons_self, List.filter_append]

theorem plain_append_slash : Plain (a ++ slash :: b) ↔ Plain a ∧ Plain b := by
  unfold Plain
  rw [List.splitOn_append_cons_self, List.mem_append, not_or]

@[simp] theorem elements_nil : elements [] = [] := rfl

theorem plain_nil : Plain [] := by
  unfold Plain
  decide

theorem elements_cons_slash (name : Str) : elements (slash :: name) = elements name :=
  elements_append_slash [] name

theorem mem_elements : element ∈ elements name ↔
    element ∈ name.splitOn slash ∧ element ≠ [] ∧ element ≠ current := by
  unfold elements
  rw [List.mem_filter, decide_eq_true_iff]

theorem notMem_of_mem_elements (h : element ∈ elements name) : slash ∉ element :=
  notMem_of_mem_splitOn (mem_elements.mp h).1

/-- A name that is one element. -/
theorem elements_eq_singleton (hslash : slash ∉ name) (hne : name ≠ []) (hdot : name ≠ current) :
    elements name = [name] := by
  unfold elements
  rw [List.splitOn_eq_singleton hslash, List.filter_eq_self]
  intro x hx
  rw [List.mem_singleton.mp hx]
  exact decide_eq_true ⟨hne, hdot⟩

/-- A name made of elements. -/
theorem elements_intercalate (h : ∀ x ∈ names, slash ∉ x ∧ x ≠ [] ∧ x ≠ current) :
    elements ([slash].intercalate names) = names := by
  by_cases hnames : names = []
  · rw [hnames]
    rfl
  · unfold elements
    rw [List.splitOn_intercalate slash (fun x hx ↦ (h x hx).1) hnames, List.filter_eq_self]
    intro x hx
    exact decide_eq_true (h x hx).2

theorem elements_intercalate_elements (name : Str) :
    elements ([slash].intercalate (elements name)) = elements name :=
  elements_intercalate fun _ hx ↦ ⟨notMem_of_mem_elements hx, (mem_elements.mp hx).2⟩

/-! ## The package `path` -/

/-- Cleaning keeps the elements, in a name without parent elements. -/
theorem foldl_cleanElement_of_notMem {rooted : Bool} {kept : List Str} (h : parent ∉ names) :
    names.foldl (cleanElement rooted) kept =
      (names.filter fun element ↦ element ≠ [] ∧ element ≠ current).reverse ++ kept := by
  induction names generalizing kept with
  | nil => rfl
  | cons x names ih =>
      obtain ⟨hx, hnames⟩ := not_or.mp (mt List.mem_cons.mpr h)
      rw [List.foldl_cons, ih hnames]
      by_cases hdrop : x = [] ∨ x = current
      · have hclean : cleanElement rooted kept x = kept := if_pos hdrop
        rw [hclean, List.filter_cons_of_neg]
        rcases hdrop with rfl | rfl
        · simp
        · simp
      · obtain ⟨hne, hdot⟩ := not_or.mp hdrop
        have hclean : cleanElement rooted kept x = x :: kept := by
          unfold cleanElement
          rw [if_neg hdrop, if_neg (Ne.symm hx)]
        rw [hclean, List.filter_cons_of_pos (by simp [hne, hdot]), List.reverse_cons,
          List.append_assoc, List.singleton_append]

/-- `path.Clean` of an absolute name. -/
theorem clean_of_rooted (hplain : Plain name) (hrooted : name.head? = some slash) :
    clean name = slash :: [slash].intercalate (elements name) := by
  unfold clean
  simp only [hrooted, if_true, foldl_cleanElement_of_notMem hplain, List.append_nil,
    List.reverse_reverse]
  rfl

/-- `path.Clean` of a relative name that has elements. -/
theorem clean_of_relative (hplain : Plain name) (hrelative : name.head? ≠ some slash)
    (hne : elements name ≠ []) : clean name = [slash].intercalate (elements name) := by
  unfold clean
  simp only [hrelative, if_false, decide_false, foldl_cleanElement_of_notMem hplain,
    List.append_nil, List.reverse_reverse]
  exact if_neg hne

theorem elements_clean (hplain : Plain name) : elements (clean name) = elements name := by
  unfold clean
  simp only [foldl_cleanElement_of_notMem hplain, List.append_nil, List.reverse_reverse]
  split
  · rw [elements_cons_slash]
    exact elements_intercalate_elements name
  · split
    · rename_i hnil
      exact Eq.symm hnil
    · exact elements_intercalate_elements name

theorem plain_intercalate (h : ∀ x ∈ names, Plain x) : Plain ([slash].intercalate names) := by
  induction names with
  | nil => exact plain_nil
  | cons x names ih =>
      cases names with
      | nil => simpa using h x List.mem_cons_self
      | cons y names =>
          rw [List.intercalate_cons_cons, List.append_assoc, List.singleton_append,
            plain_append_slash]
          exact ⟨h x List.mem_cons_self, ih fun z hz ↦ h z (List.mem_cons_of_mem _ hz)⟩

theorem elements_intercalate_flatMap (names : List Str) :
    elements ([slash].intercalate names) = names.flatMap elements := by
  induction names with
  | nil => rfl
  | cons x names ih =>
      cases names with
      | nil => simp
      | cons y names =>
          rw [List.intercalate_cons_cons, List.append_assoc, List.singleton_append,
            elements_append_slash, ih, ← List.flatMap_cons]

theorem elements_join (h : ∀ x ∈ names, Plain x) :
    elements (join names) = names.flatMap elements := by
  have hfilter : (names.filter (· ≠ [])).flatMap elements = names.flatMap elements := by
    clear h
    induction names with
    | nil => rfl
    | cons x names ih =>
        by_cases hx : x = []
        · rw [List.filter_cons_of_neg (by simp [hx]), ih, hx]
          rfl
        · rw [List.filter_cons_of_pos (by simp [hx]), List.flatMap_cons, List.flatMap_cons, ih]
  unfold join
  rw [← hfilter]
  split
  · rename_i hnil
    rw [hnil]
    rfl
  · rw [elements_clean, elements_intercalate_flatMap]
    exact plain_intercalate fun x hx ↦ h x (List.mem_of_mem_filter hx)

theorem plain_elements_intercalate (h : Plain name) :
    Plain ([slash].intercalate (elements name)) := by
  refine plain_intercalate fun x hx hparent ↦ ?_
  rw [List.splitOn_eq_singleton (notMem_of_mem_elements hx), List.mem_singleton] at hparent
  exact h (hparent ▸ (mem_elements.mp hx).1)

theorem plain_clean (h : Plain name) : Plain (clean name) := by
  unfold clean
  simp only [foldl_cleanElement_of_notMem h, List.append_nil, List.reverse_reverse]
  split
  · exact (plain_append_slash (a := [])).mpr ⟨plain_nil, plain_elements_intercalate h⟩
  · split
    · unfold Plain
      decide
    · exact plain_elements_intercalate h

theorem plain_join (h : ∀ x ∈ names, Plain x) : Plain (join names) := by
  unfold join
  split
  · exact plain_nil
  · exact plain_clean (plain_intercalate fun x hx ↦ h x (List.mem_of_mem_filter hx))

/-- `path.Join` of an absolute name and others. -/
theorem join_of_rooted (hplain : ∀ x ∈ a :: names, Plain x) (hrooted : a.head? = some slash) :
    join (a :: names) = slash :: [slash].intercalate ((a :: names).flatMap elements) := by
  have ha : a ≠ [] := by
    rintro rfl
    exact nomatch hrooted
  have helements := elements_join hplain
  unfold join at helements ⊢
  rw [List.filter_cons_of_pos (by simp [ha])] at helements ⊢
  have hplain' : Plain ([slash].intercalate (a :: names.filter (· ≠ []))) := by
    refine plain_intercalate fun x hx ↦ hplain x ?_
    rcases List.mem_cons.mp hx with rfl | hx
    · exact List.mem_cons_self
    · exact List.mem_cons_of_mem _ (List.mem_of_mem_filter hx)
  rw [elements_clean hplain'] at helements
  refine (clean_of_rooted hplain' ?_).trans (by rw [helements])
  obtain ⟨c, rest, rfl⟩ := List.exists_cons_of_ne_nil ha
  cases names.filter (· ≠ []) with
  | nil => simpa using hrooted
  | cons y ys => simpa using hrooted

/-- `path.Dir` of an absolute name made of elements. -/
theorem dir_of_elements {init : List Str} {last : Str}
    (h : ∀ x ∈ init ++ [last], slash ∉ x ∧ x ≠ [] ∧ x ≠ current ∧ x ≠ parent) :
    dir (slash :: [slash].intercalate (init ++ [last])) = slash :: [slash].intercalate init := by
  have hlast : slash ∉ last := (h last (by simp)).1
  have hinit : ∀ x ∈ init, slash ∉ x ∧ x ≠ [] ∧ x ≠ current :=
    fun x hx ↦ ⟨(h x (by simp [hx])).1, (h x (by simp [hx])).2.1, (h x (by simp [hx])).2.2.1⟩
  have hplain : Plain ([slash].intercalate init) := by
    refine plain_intercalate fun x hx hparent ↦ ?_
    rw [List.splitOn_eq_singleton (hinit x hx).1, List.mem_singleton] at hparent
    exact (h x (by simp [hx])).2.2.2 hparent.symm
  have hclean (pre : Str) (hpre : elements pre = init) (hplain : Plain pre)
      (hrooted : (pre ++ [slash]).head? = some slash) :
      clean (pre ++ [slash]) = slash :: [slash].intercalate init := by
    have hplain' : Plain (pre ++ [slash]) := plain_append_slash.mpr ⟨hplain, plain_nil⟩
    rw [clean_of_rooted hplain' hrooted, elements_append_slash, hpre, elements_nil, List.append_nil]
  by_cases hnil : init = []
  · rw [hnil, List.nil_append, List.intercalate_singleton]
    rw [← hnil, ← hclean [] (hnil ▸ rfl) plain_nil rfl]
    exact (dir_append hlast : dir ([] ++ slash :: last) = clean ([] ++ [slash]))
  · have hsplit : slash :: [slash].intercalate (init ++ [last]) =
        (slash :: [slash].intercalate init) ++ slash :: last := by
      rw [intercalate_append [slash] hnil (List.cons_ne_nil _ _), List.intercalate_singleton]
      simp
    rw [hsplit, dir_append hlast]
    refine hclean _ ?_ ?_ rfl
    · rw [elements_cons_slash, elements_intercalate hinit]
    · exact (plain_append_slash (a := [])).mpr ⟨plain_nil, hplain⟩

end GoFilesystem.Go.PathName
