import GoFilesystem.Go.Str

/-!
# The package `path`

Names of files with slashes, absolute or relative.  `clean` follows the rules of
`path.Clean` one element at a time: empty and dot elements are dropped, a parent
element removes the element before it, and at the start of an absolute name it
is dropped.
-/

namespace GoFilesystem.Go.PathName

/-- `.` -/
def current : Str := [dot]

/-- `..` -/
def parent : Str := [dot, dot]

/-- The next element of a name, given those already kept, the last one first. -/
def cleanElement (rooted : Bool) (kept : List Str) (element : Str) : List Str :=
  if element = [] ∨ element = current then kept
  else if element = parent then
    match kept with
    | [] => if rooted then [] else [parent]
    | last :: rest => if last = parent then parent :: kept else rest
  else element :: kept

/-- `path.Clean`. -/
def clean (name : Str) : Str :=
  let rooted := name.head? = some slash
  let kept := ((name.splitOn slash).foldl (cleanElement rooted) []).reverse
  if rooted then slash :: [slash].intercalate kept
  else if kept = [] then current
  else [slash].intercalate kept

/-- `path.Join`. -/
def join (elements : List Str) : Str :=
  match elements.filter (· ≠ []) with
  | [] => []
  | elements => clean ([slash].intercalate elements)

/-- `path.Dir`. -/
def dir (name : Str) : Str := clean (name.reverse.dropWhile (· ≠ slash)).reverse

/-- The directory of a name with a slash: what stands before the last one. -/
theorem dir_append {pre child : Str} (hchild : slash ∉ child) :
    dir (pre ++ slash :: child) = clean (pre ++ [slash]) := by
  have hmem : ∀ b ∈ child.reverse, decide (b ≠ slash) = true := by
    intro b hb
    exact decide_eq_true fun heq ↦ hchild (heq ▸ List.mem_reverse.mp hb)
  have hdrop : (pre ++ slash :: child).reverse.dropWhile (· ≠ slash) = slash :: pre.reverse := by
    rw [List.reverse_append, List.reverse_cons, List.append_assoc,
      List.dropWhile_append_of_pos hmem]
    rfl
  unfold dir
  rw [hdrop, List.reverse_cons, List.reverse_reverse]

/-- A name without a slash is in the current directory. -/
theorem dir_of_notMem {name : Str} (h : slash ∉ name) : dir name = current := by
  have hmem : ∀ b ∈ name.reverse, decide (b ≠ slash) = true := by
    intro b hb
    exact decide_eq_true fun heq ↦ h (heq ▸ List.mem_reverse.mp hb)
  have hdrop : name.reverse.dropWhile (· ≠ slash) = [] := by
    rw [← List.append_nil name.reverse, List.dropWhile_append_of_pos hmem]
    rfl
  unfold dir
  rw [hdrop]
  rfl

/-- `path.Base`. -/
def base (name : Str) : Str :=
  if name = [] then current
  else
    let last := ((name.reverse.dropWhile (· = slash)).takeWhile (· ≠ slash)).reverse
    if last = [] then [slash] else last

/-- The last element of a name that ends in it. -/
theorem base_append {pre child : Str} (hpre : pre = [] ∨ ∃ d, pre = d ++ [slash])
    (hchild : slash ∉ child) (hne : child ≠ []) : base (pre ++ child) = child := by
  obtain ⟨c, rest, hrev⟩ := List.exists_cons_of_ne_nil (mt List.reverse_eq_nil_iff.mp hne)
  have hmem : ∀ b ∈ child.reverse, decide (b ≠ slash) = true := by
    intro b hb
    exact decide_eq_true fun heq ↦ hchild (heq ▸ List.mem_reverse.mp hb)
  have hdrop : ((pre ++ child).reverse.dropWhile (· = slash)) = child.reverse ++ pre.reverse := by
    have hc : c ≠ slash := of_decide_eq_true (hmem c (by rw [hrev]; exact List.mem_cons_self))
    rw [List.reverse_append, hrev, List.cons_append, List.dropWhile_cons_of_neg (by simpa using hc)]
  have hstop : pre.reverse.takeWhile (· ≠ slash) = [] := by
    rcases hpre with rfl | ⟨d, rfl⟩
    · rfl
    · simp
  have hlast : ((pre ++ child).reverse.dropWhile (· = slash)).takeWhile (· ≠ slash) =
      child.reverse := by
    rw [hdrop, List.takeWhile_append_of_pos hmem, hstop, List.append_nil]
  unfold base
  rw [if_neg (by simp [hne]), hlast, List.reverse_reverse, if_neg hne]

end GoFilesystem.Go.PathName
